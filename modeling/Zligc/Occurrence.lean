import Mathlib.Tactic.ByContra

/-!
# First occurrences in lists

`locate` is the place at which one list first occurs in another one. It is an
occurrence with no earlier one, and for a list of one element it is the place of
that element.
-/
namespace Occurrence

variable {α : Type} [DecidableEq α]

/-- The place of the first occurrence of a list in another one. -/
def locate (needle : List α) : List α → Option Nat
  | [] => if needle = [] then some 0 else none
  | c :: haystack =>
    if needle <+: c :: haystack then some 0 else (locate needle haystack).map (· + 1)

theorem locate_start {needle haystack : List α} (h : needle <+: haystack) :
    locate needle haystack = some 0 := by
  cases haystack with
  | nil => simp [locate, List.prefix_nil.mp h]
  | cons c haystack => rw [locate, if_pos h]

theorem locate_eq_some_iff {needle haystack : List α} {k : Nat} :
    locate needle haystack = some k ↔
      k ≤ haystack.length ∧ needle <+: haystack.drop k ∧
        ∀ i, i < k → ¬ needle <+: haystack.drop i := by
  induction haystack generalizing k with
  | nil =>
    cases k with
    | zero => simp [locate]
    | succ k => simp [locate]
  | cons c haystack ih =>
    by_cases hpre : needle <+: c :: haystack
    · rw [locate_start hpre]
      constructor
      · intro h
        obtain rfl := Option.some.inj h
        exact ⟨Nat.zero_le _, hpre, fun i hi => absurd hi (Nat.not_lt_zero i)⟩
      · rintro ⟨_, _, hno⟩
        cases k with
        | zero => rfl
        | succ k => exact absurd hpre (hno 0 (Nat.succ_pos k))
    · rw [locate, if_neg hpre]
      cases k with
      | zero => simp [hpre]
      | succ k =>
        simp only [Option.map_eq_some_iff, Nat.add_right_cancel_iff, exists_eq_right, ih,
          List.length_cons, Nat.add_le_add_iff_right, List.drop_succ_cons]
        refine and_congr_right fun _ => and_congr_right fun _ => ?_
        constructor
        · intro hno i hi
          cases i with
          | zero => exact hpre
          | succ i => exact hno i (by omega)
        · intro hno i hi
          exact hno (i + 1) (by omega)

theorem locate_eq_none_iff {needle haystack : List α} :
    locate needle haystack = none ↔ ∀ i, i ≤ haystack.length → ¬ needle <+: haystack.drop i := by
  induction haystack with
  | nil => simp [locate]
  | cons c haystack ih =>
    rw [locate]
    split
    · rename_i hpre
      simp only [reduceCtorEq, false_iff]
      exact fun hno => hno 0 (Nat.zero_le _) hpre
    · rename_i hpre
      rw [Option.map_eq_none_iff, ih]
      constructor
      · intro hno i hi
        cases i with
        | zero => exact hpre
        | succ i => exact hno i (Nat.le_of_succ_le_succ hi)
      · intro hno i hi
        exact hno (i + 1) (Nat.succ_le_succ hi)

/-- A list occurs at a place if it stands there between two others. -/
theorem occurs_iff {α : Type} {needle haystack : List α} {k : Nat} :
    k ≤ haystack.length ∧ needle <+: haystack.drop k ↔
      ∃ a b, haystack = a ++ needle ++ b ∧ a.length = k := by
  constructor
  · rintro ⟨hk, b, hb⟩
    refine ⟨haystack.take k, b, ?_, List.length_take_of_le hk⟩
    rw [List.append_assoc, hb, List.take_append_drop]
  · rintro ⟨a, b, rfl, rfl⟩
    refine ⟨by simp, b, ?_⟩
    rw [List.append_assoc, List.drop_left]

/-- The located place is the shortest list that can stand before the needle. -/
theorem locate_iff_shortest {needle haystack : List α} {k : Nat} :
    locate needle haystack = some k ↔
      (∃ a b, haystack = a ++ needle ++ b ∧ a.length = k) ∧
        ∀ a b, haystack = a ++ needle ++ b → k ≤ a.length := by
  rw [locate_eq_some_iff, ← and_assoc, occurs_iff]
  refine and_congr_right fun hat => ?_
  constructor
  · intro hno a b hab
    by_contra hlt
    exact hno a.length (by omega) (occurs_iff.mpr ⟨a, b, hab, rfl⟩).2
  · intro hshort i hi hpre
    obtain ⟨a, b, hab, rfl⟩ := occurs_iff.mp ⟨by have := (occurs_iff.mpr hat).1; omega, hpre⟩
    have hle := hshort a b hab
    omega

theorem locate_none_iff_nowhere {needle haystack : List α} :
    locate needle haystack = none ↔ ¬ ∃ a b, haystack = a ++ needle ++ b := by
  rw [locate_eq_none_iff]
  constructor
  · rintro hno ⟨a, b, hab⟩
    obtain ⟨hk, hpre⟩ := occurs_iff.mpr ⟨a, b, hab, rfl⟩
    exact hno _ hk hpre
  · intro hno i hi hpre
    obtain ⟨a, b, hab, _⟩ := occurs_iff.mp ⟨hi, hpre⟩
    exact hno ⟨a, b, hab⟩

/-- An occurrence ends inside the list. -/
theorem locate_bound {needle haystack : List α} {k : Nat} (h : locate needle haystack = some k) :
    k + needle.length ≤ haystack.length := by
  obtain ⟨hk, hpre, _⟩ := locate_eq_some_iff.mp h
  have hlen := hpre.length_le
  rw [List.length_drop] at hlen
  omega

/-- What follows a list moves no occurrence that is in it. -/
theorem locate_append {needle haystack : List α} {k : Nat} (h : locate needle haystack = some k)
    (rest : List α) : locate needle (haystack ++ rest) = some k := by
  have hbound := locate_bound h
  obtain ⟨hk, hpre, hno⟩ := locate_eq_some_iff.mp h
  rw [locate_eq_some_iff]
  refine ⟨by rw [List.length_append]; omega, ?_, fun i hi hearly => ?_⟩
  · rw [List.drop_append_of_le_length hk]
    exact hpre.trans (List.prefix_append _ _)
  · rw [List.drop_append_of_le_length (by omega)] at hearly
    apply hno i hi
    apply List.prefix_of_prefix_length_le hearly (List.prefix_append _ _)
    rw [List.length_drop]
    omega

theorem locate_long {needle haystack : List α} (h : haystack.length < needle.length) :
    locate needle haystack = none := by
  rw [locate_eq_none_iff]
  intro i hi hpre
  have hle := hpre.length_le
  rw [List.length_drop] at hle
  omega

/-- The number of places that a search from the left tries in vain. -/
def misses (needle haystack : List α) : Nat :=
  (locate needle haystack).getD (haystack.length - needle.length + 1)

theorem misses_le (needle haystack : List α) :
    misses needle haystack ≤ haystack.length - needle.length + 1 := by
  unfold misses
  cases h : locate needle haystack with
  | none => exact Nat.le_refl _
  | some k =>
    have hk := locate_bound h
    rw [Option.getD_some]
    omega

theorem not_before_misses {needle haystack : List α} (hfits : needle.length ≤ haystack.length)
    {i : Nat} (hi : i < misses needle haystack) : ¬ needle <+: haystack.drop i := by
  unfold misses at hi
  cases h : locate needle haystack with
  | none => exact locate_eq_none_iff.mp h i (by rw [h, Option.getD_none] at hi; omega)
  | some k =>
    rw [h, Option.getD_some] at hi
    exact (locate_eq_some_iff.mp h).2.2 i hi

/-- The address of the first `c` in a list that lies at `p`. -/
def addressOf (p : Nat) (xs : List α) (c : α) : Option Nat :=
  if c ∈ xs then some (p + xs.idxOf c) else none

theorem not_mem_take_idxOf (xs : List α) (c : α) : c ∉ xs.take (xs.idxOf c) := by
  induction xs with
  | nil => simp
  | cons x xs ih =>
    by_cases hx : x = c
    · simp [hx]
    · rw [List.idxOf_cons, beq_false_of_ne hx, cond_false, List.take_succ_cons, List.mem_cons,
        not_or]
      exact ⟨fun he => hx he.symm, ih⟩

/-- A list with one more element at its end: that one is found if nothing before it is. -/
theorem addressOf_concat (p : Nat) (xs : List α) (z c : α) :
    addressOf p (xs ++ [z]) c =
      if c ∈ xs then some (p + xs.idxOf c) else if c = z then some (p + xs.length) else none := by
  unfold addressOf
  by_cases hc : c ∈ xs
  · simp [hc, List.idxOf_append]
  · by_cases hz : c = z
    · subst hz
      simp [hc, List.idxOf_append]
    · simp [hc, hz]

/-- A list of one element first occurs where the element does. -/
theorem locate_singleton (c : α) (xs : List α) :
    locate [c] xs = if c ∈ xs then some (xs.idxOf c) else none := by
  induction xs with
  | nil => simp [locate]
  | cons x xs ih =>
    by_cases hx : c = x
    · simp [locate, hx]
    · rw [locate, ih]
      have hne : (x == c) = false := beq_false_of_ne fun he => hx he.symm
      by_cases hc : c ∈ xs <;> simp [hx, hne, hc, List.idxOf_cons, List.cons_prefix_cons]

end Occurrence
