import Mathlib.Data.List.TakeWhile
import Mathlib.Tactic.ByContra

/-!
# Prefixes and runs of one kind

The longest prefix of a list on which a test succeeds, and the cut of a list into
runs on which the test succeeds and runs on which it fails, in turn.
-/
namespace Spans

variable {α : Type} {p q : α → Bool} {s : List α}

/-- The longest prefix of the list whose elements all have the property has `k` elements. -/
structure Longest (P : α → Prop) (s : List α) (k : Nat) : Prop where
  fits : k ≤ s.length
  all : ∀ c ∈ s.take k, P c
  longest : ∀ j, j ≤ s.length → (∀ c ∈ s.take j, P c) → j ≤ k

theorem takeWhile_length_le (p : α → Bool) (s : List α) : (s.takeWhile p).length ≤ s.length :=
  (s.takeWhile_prefix p).length_le

theorem take_takeWhile_length (p : α → Bool) (s : List α) :
    s.take (s.takeWhile p).length = s.takeWhile p :=
  (List.prefix_iff_eq_take.mp (s.takeWhile_prefix p)).symm

/-- A prefix on which the test succeeds lies in the longest one. -/
theorem le_takeWhile_length {j : Nat} (hj : j ≤ s.length) (h : ∀ c ∈ s.take j, p c) :
    j ≤ (s.takeWhile p).length := by
  induction s generalizing j with
  | nil => exact hj
  | cons c s ih =>
    cases j with
    | zero => exact Nat.zero_le _
    | succ j =>
      rw [List.take_succ_cons] at h
      rw [List.takeWhile_cons_of_pos (h c (.head _)), List.length_cons]
      have hle := ih (Nat.le_of_succ_le_succ hj) fun d hd => h d (.tail _ hd)
      omega

theorem longest_takeWhile {P : α → Prop} (h : ∀ c, p c = true ↔ P c) (s : List α) :
    Longest P s (s.takeWhile p).length := by
  constructor
  · exact takeWhile_length_le p s
  · intro c hc
    rw [take_takeWhile_length] at hc
    exact (h c).mp (List.mem_takeWhile_imp hc)
  · intro j hj hall
    exact le_takeWhile_length hj fun c hc => (h c).mpr (hall c hc)

/-- A test that succeeds more often succeeds on a prefix that is no shorter. -/
theorem takeWhile_length_mono (h : ∀ c, p c → q c) (s : List α) :
    (s.takeWhile p).length ≤ (s.takeWhile q).length := by
  apply le_takeWhile_length (takeWhile_length_le p s)
  intro c hc
  rw [take_takeWhile_length] at hc
  exact h c (List.mem_takeWhile_imp hc)

/-- A test has succeeded on a prefix that ends where it first fails. -/
theorem findIdx_eq_takeWhile (p : α → Bool) (s : List α) :
    s.findIdx p = (s.takeWhile fun c => !p c).length := by
  induction s with
  | nil => rfl
  | cons c s ih =>
    rw [List.findIdx_cons, ih]
    cases hc : p c <;> simp [hc]

/-- What the test decides of the first element decides which of the two spans is empty. -/
theorem takeWhile_pos (c : α) (s : List α) :
    0 < ((c :: s).takeWhile p).length ↔ p c = true := by
  cases hc : p c <;> simp [hc]

/-- The rest of a list behind a run on which the test succeeds and one on which it fails. -/
def behind (p : α → Bool) (s : List α) : List α := (s.dropWhile p).dropWhile fun c => !p c

theorem behind_length_lt (p : α → Bool) (hs : s ≠ []) : (behind p s).length < s.length := by
  cases s with
  | nil => exact absurd rfl hs
  | cons c s =>
    unfold behind
    cases hc : p c with
    | true =>
      have hfirst := List.length_dropWhile_le p s
      have hrest := List.length_dropWhile_le (fun c => !p c) (s.dropWhile p)
      rw [List.dropWhile_cons_of_pos hc, List.length_cons]
      omega
    | false =>
      have hrest := List.length_dropWhile_le (fun c => !p c) s
      rw [List.dropWhile_cons_of_neg (by simp [hc]), List.dropWhile_cons_of_pos (by simp [hc]),
        List.length_cons]
      omega

/-- The runs of a list, in pairs of one on which the test succeeds and one on which it fails. -/
def cuts (p : α → Bool) (s : List α) : List (List α × List α) :=
  if s = [] then []
  else (s.takeWhile p, (s.dropWhile p).takeWhile fun c => !p c) :: cuts p (behind p s)
termination_by s.length
decreasing_by exact behind_length_lt p ‹_›

/-- The list cut into maximal runs. Those with the property and those without it alternate, and
only the first of the one kind and the last of the other can be empty, though not both of a pair. -/
structure MaximalRuns (P : α → Prop) (s : List α) (runs : List (List α × List α)) : Prop where
  whole : s = runs.flatMap fun r => r.1 ++ r.2
  inside : ∀ r ∈ runs, ∀ c ∈ r.1, P c
  outside : ∀ r ∈ runs, ∀ c ∈ r.2, ¬ P c
  progress : ∀ r ∈ runs, r.1 ≠ [] ∨ r.2 ≠ []
  opened : ∀ r ∈ runs.tail, r.1 ≠ []
  closed : ∀ r ∈ runs.dropLast, r.2 ≠ []

theorem whole_behind (p : α → Bool) (s : List α) :
    s = s.takeWhile p ++ (s.dropWhile p).takeWhile (fun c => !p c) ++ behind p s := by
  rw [List.append_assoc, behind, List.takeWhile_append_dropWhile, List.takeWhile_append_dropWhile]

/-- The test succeeds right behind a run on which it failed. -/
theorem behind_head {c : α} {t : List α} (h : behind p s = c :: t) : p c = true := by
  have hhead := List.head?_dropWhile_not (fun c => !p c) (s.dropWhile p)
  rw [← behind, h] at hhead
  simpa using hhead

/-- A run on which the test fails comes before everything that is left. -/
theorem between_ne_nil (h : behind p s ≠ []) : ((s.dropWhile p).takeWhile fun c => !p c) ≠ [] := by
  unfold behind at h
  cases hd : s.dropWhile p with
  | nil => rw [hd] at h; exact absurd rfl h
  | cons c t =>
    have hhead := List.head?_dropWhile_not p s
    rw [hd] at hhead
    have hc : (!p c) = true := by simpa using hhead
    rw [List.takeWhile_cons_of_pos (p := fun c => !p c) hc]
    exact List.cons_ne_nil _ _

theorem cuts_ne_nil (hs : s ≠ []) : cuts p s =
    (s.takeWhile p, (s.dropWhile p).takeWhile fun c => !p c) :: cuts p (behind p s) := by
  rw [cuts, if_neg hs]

@[simp] theorem cuts_nil (p : α → Bool) : cuts p [] = [] := by
  rw [cuts, if_pos rfl]

/-- From an element on which the test succeeds on, no run on which it succeeds is empty. -/
theorem cuts_opened (h : ∀ c t, s = c :: t → p c = true) : ∀ r ∈ cuts p s, r.1 ≠ [] := by
  induction s using cuts.induct p with
  | case1 => simp
  | case2 s hs ih =>
    rw [cuts_ne_nil hs]
    intro r hr
    cases hr with
    | head =>
      obtain ⟨c, t, rfl⟩ := List.exists_cons_of_ne_nil hs
      rw [List.takeWhile_cons_of_pos (h c t rfl)]
      exact List.cons_ne_nil _ _
    | tail _ hr => exact ih (fun c t ht => behind_head ht) r hr

theorem cuts_closed (p : α → Bool) (s : List α) : ∀ r ∈ (cuts p s).dropLast, r.2 ≠ [] := by
  induction s using cuts.induct p with
  | case1 => simp
  | case2 s hs ih =>
    rw [cuts_ne_nil hs]
    by_cases hb : behind p s = []
    · simp [hb]
    · rw [List.dropLast_cons_of_ne_nil (by rw [cuts_ne_nil hb]; exact List.cons_ne_nil _ _)]
      intro r hr
      cases hr with
      | head => exact between_ne_nil hb
      | tail _ hr => exact ih r hr

theorem cuts_whole (p : α → Bool) (s : List α) : s = (cuts p s).flatMap fun r => r.1 ++ r.2 := by
  induction s using cuts.induct p with
  | case1 => simp
  | case2 s hs ih =>
    rw [cuts_ne_nil hs, List.flatMap_cons, ← ih]
    exact whole_behind p s

theorem cuts_runs {P : α → Prop} (h : ∀ c, p c = true ↔ P c) (s : List α) :
    MaximalRuns P s (cuts p s) := by
  have hkinds : ∀ r ∈ cuts p s, (∀ c ∈ r.1, P c) ∧ (∀ c ∈ r.2, ¬ P c) ∧ (r.1 ≠ [] ∨ r.2 ≠ []) := by
    induction s using cuts.induct p with
    | case1 => simp
    | case2 s hs ih =>
      rw [cuts_ne_nil hs]
      intro r hr
      cases hr with
      | tail _ hr => exact ih r hr
      | head =>
        refine ⟨fun c hc => (h c).mp (List.mem_takeWhile_imp hc), fun c hc hP => ?_, ?_⟩
        · have hno := List.mem_takeWhile_imp hc
          rw [(h c).mpr hP] at hno
          cases hno
        · obtain ⟨c, t, rfl⟩ := List.exists_cons_of_ne_nil hs
          cases hc : p c <;> simp [hc]
  constructor
  · exact cuts_whole p s
  · exact fun r hr => (hkinds r hr).1
  · exact fun r hr => (hkinds r hr).2.1
  · exact fun r hr => (hkinds r hr).2.2
  · by_cases hs : s = []
    · simp [hs]
    · rw [cuts_ne_nil hs]
      exact cuts_opened fun c t ht => behind_head ht
  · exact cuts_closed p s

end Spans
