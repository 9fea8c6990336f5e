import Zligc.StringSearch
import Zligc.StringBounds

/-!
# What the unbounded functions read

The functions that go by the terminator alone read each string up to it and no
further. All of them return, except strchr with a character that is no byte: its
cast fails at the first byte of a string that is not empty.
-/
namespace ZligcString

open Effect CellMemory Zig Occurrence

instance : Watched Traced where
  seen s p i := (p, i) ∈ s.reads
  mem_withMem _ _ := rfl
  mem_reading _ _ _ := rfl
  seen_withMem _ _ := rfl
  seen_reading p i s q j h := by
    cases h with
    | head => exact Or.inl ⟨rfl, rfl⟩
    | tail _ h => exact Or.inr h
  seen_kept _ _ _ _ _ h := .tail _ h

variable {α : Type}

/-- `p[i]` is a byte of one of the strings or its terminator. -/
def Inside (args : List (Nat × List UInt8)) (p i : Nat) : Prop :=
  ∃ s, (p, s) ∈ args ∧ i ≤ s.length

/-- The call returns something with the property, and of memory it has read only the strings up to
their terminators. -/
def Contained (args : List (Nat × List UInt8)) (m : Mem) (x : Run Traced α) (Q : α → Prop) :
    Prop :=
  ∃ a t, x.run ⟨m, []⟩ = .ok a t ∧ Q a ∧ ∀ r, r ∈ t.reads → Inside args r.1 r.2

/-- The address, if there is one, is that of a byte of the string or of its terminator. -/
def Points (p : Nat) (s : List UInt8) (r : Option Nat) : Prop :=
  ∀ a, r = some a → ∃ i, i ≤ s.length ∧ a = p + i

/-- The nine functions on the strings `s` at `p` and `t` at `q`, with the character `ch` for
strchr. -/
structure StaysInside (m : Mem) (p q : Nat) (s t : List UInt8) (ch : Int32) : Prop where
  strlen : Contained [(p, s)] m (strlen p) (· = s.length)
  strcpy : ∀ dest, Mapped m dest (s.length + 1) → Apart p (s.length + 1) dest (s.length + 1) →
    Contained [(p, s)] m (strcpy dest p) (· = dest)
  strcat : ∀ dest cur, StringAt m dest cur → Mapped m (dest + cur.length) (s.length + 1) →
    Apart p (s.length + 1) (dest + cur.length) (s.length + 1) →
    Contained [(dest, cur), (p, s)] m (strcat dest p) (· = dest)
  strcmp : Contained [(p, s), (q, t)] m (strcmp p q) (fun _ => True)
  strchr : Contained [(p, s)] m (strchr p ch) (Points p s)
  strstr : Contained [(p, s), (q, t)] m (strstr p q) (Points p s)
  strpbrk : Contained [(p, s), (q, t)] m (strpbrk p q) (Points p s)
  strspn : Contained [(p, s), (q, t)] m (strspn p q) (· ≤ s.length)
  strcspn : Contained [(p, s), (q, t)] m (strcspn p q) (· ≤ s.length)

section Reading

variable {m m' : Mem} {p q : Nat} {s t : List UInt8} {args : List (Nat × List UInt8)}

theorem contained {x : Run Traced α} {a : α} {Q : α → Prop} (h : Yields (Inside args) m x a m')
    (hQ : Q a) : Contained args m x Q := by
  obtain ⟨t, hrun, _, hreads⟩ := h ⟨m, []⟩ rfl
  refine ⟨a, t, hrun, hQ, fun r hr => ?_⟩
  cases hreads r.1 r.2 hr with
  | inl hold => exact absurd hold List.not_mem_nil
  | inr hin => exact hin

theorem inside_first (p : Nat) (s : List UInt8) (rest : List (Nat × List UInt8)) {i : Nat}
    (hi : i ≤ s.length) : Inside ((p, s) :: rest) p i :=
  ⟨s, .head _, hi⟩

theorem inside_second (p q : Nat) (s t : List UInt8) {i : Nat} (hi : i ≤ t.length) :
    Inside [(p, s), (q, t)] q i :=
  ⟨t, .tail _ (.head _), hi⟩

theorem points_addressOf (p : Nat) (s : List UInt8) (c : UInt8) :
    Points p s (addressOf p (s ++ [0]) c) := by
  intro a ha
  rw [addressOf_concat] at ha
  split at ha
  · exact ⟨_, List.idxOf_le_length, (Option.some.inj ha).symm⟩
  · split at ha
    · exact ⟨_, Nat.le_refl _, (Option.some.inj ha).symm⟩
    · cases ha

theorem points_locate (p : Nat) (s t : List UInt8) : Points p s ((locate t s).map (p + ·)) := by
  intro a ha
  obtain ⟨k, hk, rfl⟩ := Option.map_eq_some_iff.mp ha
  exact ⟨k, (locate_eq_some_iff.mp hk).1, rfl⟩

theorem strchr_contained (h : StringAt m p s) (ch : Int32) :
    Contained [(p, s)] m (strchr p ch) (Points p s) ↔
      s = [] ∨ (0 ≤ ch.toInt ∧ ch.toInt < 256) := by
  constructor
  · rintro ⟨a, u, hrun, _⟩
    by_contra hno
    rw [not_or] at hno
    rw [strchr_fault h hno.1 hno.2 rfl] at hrun
    cases hrun
  · rintro (rfl | hch)
    · apply contained (strchr_empty h ch (inside_first p [] [] (Nat.le_refl 0)))
      intro a ha
      split at ha
      · exact ⟨0, Nat.le_refl 0, (Option.some.inj ha).symm⟩
      · cases ha
    · rw [← widen_cast hch]
      exact contained (strchr_yields h _ fun i hi => inside_first p s [] hi) (points_addressOf p s _)

end Reading

/-- All nine functions stay inside their strings and return exactly if strchr is given a byte or an
empty string. -/
theorem unbounded_reads_iff {m : Mem} {p q : Nat} {s t : List UInt8} (hs : StringAt m p s)
    (ht : StringAt m q t) (ch : Int32) :
    StaysInside m p q s t ch ↔ s = [] ∨ (0 ≤ ch.toInt ∧ ch.toInt < 256) := by
  rw [← strchr_contained hs ch]
  constructor
  · exact fun h => h.strchr
  · intro hchr
    have hone : ∀ i, i ≤ s.length → Inside [(p, s)] p i := fun i hi => inside_first p s [] hi
    have hfirst : ∀ i, i ≤ s.length → Inside [(p, s), (q, t)] p i :=
      fun i hi => inside_first p s _ hi
    have hsecond : ∀ i, i ≤ t.length → Inside [(p, s), (q, t)] q i :=
      fun i hi => inside_second p q s t hi
    constructor
    · exact contained (strlen_yields hs hone) rfl
    · exact fun dest hm ha => contained (strcpy_yields hs hm ha hone) rfl
    · intro dest cur hcur hm ha
      exact contained (strcat_yields hcur hs hm ha (fun i hi => inside_first dest cur _ hi)
        (fun i hi => inside_second dest p cur s hi)) rfl
    · exact contained (strcmp_yields hs ht hfirst hsecond) trivial
    · exact hchr
    · exact contained (strstr_yields hs ht hfirst hsecond) (points_locate p s t)
    · apply contained (scanSet_yields hs ht true _ _ hfirst hsecond)
      intro a ha
      split at ha
      · exact ⟨_, List.findIdx_le_length, (Option.some.inj ha).symm⟩
      · cases ha
    · apply contained (scanSet_yields hs ht false _ _ hfirst hsecond)
      split
      · exact List.findIdx_le_length
      · exact Nat.le_refl _
    · apply contained (scanSet_yields hs ht true _ _ hfirst hsecond)
      split
      · exact List.findIdx_le_length
      · exact Nat.le_refl _

theorem unbounded_reads_iff_example :
    StaysInside orderedMem 3 1 [97, 98] [97] 98 ↔
      ([97, 98] : List UInt8) = [] ∨ (0 ≤ (98 : Int32).toInt ∧ (98 : Int32).toInt < 256) :=
  unbounded_reads_iff ⟨by decide, by decide⟩ ⟨by decide, by decide⟩ 98

/-- The negative character -1 stops strchr on the string "a". -/
theorem strchr_negative :
    fault? ((strchr 1 (-1)).run (⟨orderedMem, []⟩ : Traced)) = some .integerCast ∧
      ¬ StaysInside orderedMem 1 3 [97] [97, 98] (-1) := by
  have hrun : fault? ((strchr 1 (-1)).run (⟨orderedMem, []⟩ : Traced)) = some .integerCast := by
    decide
  refine ⟨hrun, fun h => ?_⟩
  obtain ⟨a, t, hok, _⟩ := h.strchr
  rw [hok] at hrun
  cases hrun

end ZligcString
