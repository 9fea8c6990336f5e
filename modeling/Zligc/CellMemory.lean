import Mathlib.Tactic.ByContra

/-!
# Partial memories, arrays and terminated strings

A memory is a partial map from addresses to cells. Address zero and every
address from `limit` on are never mapped. Writing keeps the set of mapped
addresses: it replaces the cells that are mapped and leaves the rest unmapped.
-/
namespace CellMemory

structure Memory (β : Type) (limit : Nat) where
  cell : Nat → Option β
  null : cell 0 = none
  bounded : ∀ p, limit ≤ p → cell p = none

variable {β : Type} {limit : Nat}

@[ext] theorem Memory.ext {m m' : Memory β limit} (h : ∀ p, m.cell p = m'.cell p) : m = m' := by
  obtain ⟨c, _, _⟩ := m
  obtain ⟨c', _, _⟩ := m'
  obtain rfl : c = c' := funext h
  rfl

/-- Overwrite consecutive cells from `a` on with the elements of a list. -/
def write (m : Memory β limit) (a : Nat) (xs : List β) : Memory β limit where
  cell p := (m.cell p).map fun old => if a ≤ p then xs[p - a]?.getD old else old
  null := by simp [m.null]
  bounded p hp := by simp [m.bounded p hp]

theorem write_cell (m : Memory β limit) (a : Nat) (xs : List β) (p : Nat) :
    (write m a xs).cell p =
      (m.cell p).map fun old => if a ≤ p then xs[p - a]?.getD old else old := rfl

@[simp] theorem write_nil (m : Memory β limit) (a : Nat) : write m a [] = m := by
  ext p : 1
  simp [write_cell]

theorem write_outside (m : Memory β limit) (a : Nat) (xs : List β) (p : Nat)
    (h : p < a ∨ a + xs.length ≤ p) : (write m a xs).cell p = m.cell p := by
  have hid : (fun old => if a ≤ p then xs[p - a]?.getD old else old) = id := by
    funext old
    split
    · rw [List.getElem?_eq_none (by omega)]; rfl
    · rfl
  rw [write_cell, hid, Option.map_id, id]

@[simp] theorem write_mapped (m : Memory β limit) (a : Nat) (xs : List β) (p : Nat) :
    ((write m a xs).cell p).isSome = (m.cell p).isSome := by
  simp [write_cell]

/-- Writing a concatenation is writing its parts one after the other. -/
theorem write_append (m : Memory β limit) (a : Nat) (xs ys : List β) :
    write m a (xs ++ ys) = write (write m a xs) (a + xs.length) ys := by
  ext p : 1
  simp only [write_cell, Option.map_map]
  congr 1
  funext old
  simp only [Function.comp]
  by_cases hxs : p < a + xs.length
  · have hys : ¬ a + xs.length ≤ p := by omega
    by_cases ha : a ≤ p
    · rw [if_pos ha, if_neg hys, if_pos ha, List.getElem?_append_left (by omega)]
    · rw [if_neg ha, if_neg hys, if_neg ha]
  · have ha : a ≤ p := by omega
    have hnone : xs[p - a]? = none := List.getElem?_eq_none (by omega)
    rw [if_pos ha, if_pos ha, if_pos (by omega), List.getElem?_append_right (by omega), hnone]
    rw [show p - a - xs.length = p - (a + xs.length) by omega]
    rfl

/-- One more element of a list. -/
theorem write_take_succ (m : Memory β limit) (a : Nat) {xs : List β} {i : Nat} (hi : i < xs.length) :
    write (write m a (xs.take i)) (a + i) [xs[i]] = write m a (xs.take (i + 1)) := by
  have hlen : (xs.take i).length = i := by rw [List.length_take]; omega
  rw [List.take_succ_eq_append_getElem hi, write_append, hlen]

/-- Two writes with nothing in common can be done in either order. -/
theorem write_comm (m : Memory β limit) {a b : Nat} {xs : List β} (ys : List β)
    (h : a + xs.length ≤ b) : write (write m a xs) b ys = write (write m b ys) a xs := by
  ext p : 1
  simp only [write_cell, Option.map_map]
  congr 1
  funext old
  simp only [Function.comp]
  by_cases hb : b ≤ p
  · have hnone : xs[p - a]? = none := List.getElem?_eq_none (by omega)
    rw [hnone]
    simp [hb]
  · simp [hb]

/-- One more element in front of the end of a list. -/
theorem write_drop_succ (m : Memory β limit) (a : Nat) {xs : List β} {i : Nat} (hi : i < xs.length) :
    write (write m (a + (i + 1)) (xs.drop (i + 1))) (a + i) [xs[i]] = write m (a + i) (xs.drop i) := by
  have hlen : a + i + [xs[i]].length ≤ a + (i + 1) := Nat.le_refl _
  have hcons : xs.drop i = [xs[i]] ++ xs.drop (i + 1) := List.drop_eq_getElem_cons hi
  rw [← write_comm m _ hlen, hcons, write_append]
  rfl

/-- One more copy of an element behind a list. -/
theorem write_replicate_succ (m : Memory β limit) (a : Nat) (xs : List β) (i : Nat) (b : β) :
    write (write m a (xs ++ List.replicate i b)) (a + (xs.length + i)) [b] =
      write m a (xs ++ List.replicate (i + 1) b) := by
  rw [List.replicate_succ', ← List.append_assoc, write_append m a (_ ++ _), List.length_append,
    List.length_replicate]

/-- Change the cells of a range, each one as its address tells. -/
def change (m : Memory β limit) (a n : Nat) (f : Nat → β → β) : Memory β limit where
  cell p := (m.cell p).map fun old => if a ≤ p ∧ p < a + n then f p old else old
  null := by simp [m.null]
  bounded p hp := by simp [m.bounded p hp]

theorem change_inside (m : Memory β limit) {a n : Nat} (f : Nat → β → β) {p : Nat}
    (h : a ≤ p ∧ p < a + n) : (change m a n f).cell p = (m.cell p).map (f p) := by
  simp [change, h]

theorem change_outside (m : Memory β limit) {a n : Nat} (f : Nat → β → β) {p : Nat}
    (h : ¬ (a ≤ p ∧ p < a + n)) : (change m a n f).cell p = m.cell p := by
  simp [change, h]

@[simp] theorem change_mapped (m : Memory β limit) (a n : Nat) (f : Nat → β → β) (p : Nat) :
    ((change m a n f).cell p).isSome = (m.cell p).isSome := by
  simp [change]

/-- What is overwritten does not matter. -/
theorem write_change (m : Memory β limit) (a : Nat) (f : Nat → β → β) (xs : List β) :
    write (change m a xs.length f) a xs = write m a xs := by
  ext p : 1
  rw [write_cell, write_cell]
  by_cases h : a ≤ p ∧ p < a + xs.length
  · have hsome : xs[p - a]? = some xs[p - a] := List.getElem?_eq_getElem (by omega)
    rw [change_inside m f h, Option.map_map]
    simp [h.1, hsome, Function.comp_def]
  · rw [change_outside m f h]

/-- Every address of the range is mapped. -/
def Mapped (m : Memory β limit) (a n : Nat) : Prop := ∀ i, i < n → (m.cell (a + i)).isSome

/-- The two address ranges have no address in common. -/
def Apart (a n b k : Nat) : Prop := ∀ i, i < n → ∀ j, j < k → a + i ≠ b + j

/-- The memory holds the list from `a` on. -/
def Holds (m : Memory β limit) (a : Nat) (xs : List β) : Prop :=
  ∀ i, i < xs.length → m.cell (a + i) = xs[i]?

theorem Apart.mono {a n b k n' k' : Nat} (h : Apart a n b k) (hn : n' ≤ n) (hk : k' ≤ k) :
    Apart a n' b k' :=
  fun i hi j hj => h i (by omega) j (by omega)

/-- A range apart from another one is apart from every part of it. -/
theorem Apart.part {a n b k c l : Nat} (h : Apart a n b k) (hl : b ≤ c) (hr : c + l ≤ b + k) :
    Apart a n c l := by
  intro i hi j hj he
  exact h i hi (c - b + j) (by omega) (by omega)

theorem Mapped.write {m : Memory β limit} {a n : Nat} (h : Mapped m a n) (b : Nat)
    (ys : List β) : Mapped (write m b ys) a n := by
  intro i hi
  rw [write_mapped]
  exact h i hi

theorem Mapped.change {m : Memory β limit} {a n : Nat} (h : Mapped m a n) (b k : Nat)
    (f : Nat → β → β) : Mapped (change m b k f) a n := by
  intro i hi
  rw [change_mapped]
  exact h i hi

theorem Mapped.part {m : Memory β limit} {a n c l : Nat} (h : Mapped m a n) (hl : a ≤ c)
    (hr : c + l ≤ a + n) : Mapped m c l := by
  intro i hi
  have hc := h (c - a + i) (by omega)
  rwa [show a + (c - a + i) = c + i by omega] at hc

/-- A mapped range lies strictly between the null address and the limit. -/
theorem Mapped.bounds {m : Memory β limit} {a n : Nat} (h : Mapped m a n) (hn : 0 < n) :
    0 < a ∧ a + n ≤ limit := by
  constructor
  · by_contra ha
    have h0 := h 0 hn
    rw [show a + 0 = 0 by omega, m.null] at h0
    cases h0
  · by_contra ha
    have hl := h (n - 1) (by omega)
    rw [m.bounded _ (by omega)] at hl
    cases hl

theorem Mapped.length_lt {m : Memory β limit} {a n : Nat} (h : Mapped m a n) (hl : 0 < limit) :
    n < limit := by
  cases n with
  | zero => exact hl
  | succ n =>
    have hb := h.bounds (Nat.succ_pos n)
    omega

theorem Holds.mapped {m : Memory β limit} {a : Nat} {xs : List β} (h : Holds m a xs) :
    Mapped m a xs.length := by
  intro i hi
  rw [h i hi, List.getElem?_eq_getElem hi]
  rfl

/-- A mapped range holds some list. -/
theorem Mapped.holds {m : Memory β limit} {a n : Nat} (h : Mapped m a n) :
    ∃ xs : List β, Holds m a xs ∧ xs.length = n := by
  induction n with
  | zero => exact ⟨[], fun i hi => absurd hi (Nat.not_lt_zero i), rfl⟩
  | succ n ih =>
    obtain ⟨xs, hxs, hlen⟩ := ih fun i hi => h i (by omega)
    obtain ⟨x, hx⟩ := Option.isSome_iff_exists.mp (h n (Nat.lt_succ_self n))
    refine ⟨xs ++ [x], fun i hi => ?_, by rw [List.length_append, hlen, List.length_singleton]⟩
    rw [List.length_append, List.length_singleton] at hi
    by_cases hlt : i < xs.length
    · rw [hxs i hlt, List.getElem?_append_left hlt]
    · obtain rfl : i = xs.length := by omega
      rw [hlen, hx, ← hlen, List.getElem?_concat_length]

theorem Holds.append {m : Memory β limit} {a : Nat} {xs ys : List β} (hx : Holds m a xs)
    (hy : Holds m (a + xs.length) ys) : Holds m a (xs ++ ys) := by
  intro i hi
  rw [List.length_append] at hi
  by_cases hlt : i < xs.length
  · rw [hx i hlt, List.getElem?_append_left hlt]
  · have hc := hy (i - xs.length) (by omega)
    rw [show a + xs.length + (i - xs.length) = a + i by omega] at hc
    rw [hc, List.getElem?_append_right (by omega)]

theorem Holds.left {m : Memory β limit} {a : Nat} {xs ys : List β} (h : Holds m a (xs ++ ys)) :
    Holds m a xs := by
  intro i hi
  rw [h i (by rw [List.length_append]; omega), List.getElem?_append_left hi]

theorem Holds.right {m : Memory β limit} {a : Nat} {xs ys : List β} (h : Holds m a (xs ++ ys)) :
    Holds m (a + xs.length) ys := by
  intro i hi
  rw [Nat.add_assoc, h (xs.length + i) (by rw [List.length_append]; omega),
    List.getElem?_append_right (by omega), Nat.add_sub_cancel_left]

theorem Holds.take {m : Memory β limit} {a : Nat} {xs : List β} (h : Holds m a xs) (n : Nat) :
    Holds m a (xs.take n) := by
  have hall : Holds m a (xs.take n ++ xs.drop n) := by rwa [List.take_append_drop]
  exact hall.left

/-- The part of a list from `i` on lies `i` further. -/
theorem Holds.drop {m : Memory β limit} {a : Nat} {xs : List β} (h : Holds m a xs) {i : Nat}
    (hi : i ≤ xs.length) : Holds m (a + i) (xs.drop i) := by
  have hall : Holds m a (xs.take i ++ xs.drop i) := by rwa [List.take_append_drop]
  have hright := hall.right
  rwa [List.length_take, Nat.min_eq_left hi] at hright

theorem Holds.cell {m : Memory β limit} {a : Nat} {xs : List β} (h : Holds m a xs) {i : Nat}
    (hi : i < xs.length) : m.cell (a + i) = some xs[i] := by
  rw [h i hi, List.getElem?_eq_getElem hi]

/-- The element right after a held prefix. -/
theorem Holds.middle {m : Memory β limit} {a : Nat} {xs ys : List β} {y : β}
    (h : Holds m a (xs ++ y :: ys)) : m.cell (a + xs.length) = some y := by
  simpa using h.right 0 (by simp)

theorem holds_write (m : Memory β limit) (a : Nat) (xs : List β) (h : Mapped m a xs.length) :
    Holds (write m a xs) a xs := by
  intro i hi
  obtain ⟨old, hold⟩ := Option.isSome_iff_exists.mp (h i hi)
  simp [write_cell, hold, hi]

/-- Writing what is already there changes nothing. -/
theorem Holds.write_self {m : Memory β limit} {a : Nat} {xs : List β} (h : Holds m a xs) :
    CellMemory.write m a xs = m := by
  ext p : 1
  by_cases hin : p < a ∨ a + xs.length ≤ p
  · exact write_outside m a xs p hin
  · obtain ⟨i, rfl⟩ : ∃ i, p = a + i := ⟨p - a, by omega⟩
    have hi : i < xs.length := by omega
    rw [write_cell, h.cell hi, Nat.add_sub_cancel_left, List.getElem?_eq_getElem hi]
    simp

theorem Holds.write {m : Memory β limit} {a b : Nat} {xs ys : List β} (h : Holds m a xs)
    (hd : Apart a xs.length b ys.length) : Holds (write m b ys) a xs := by
  intro i hi
  rw [write_outside, h i hi]
  by_contra hin
  exact hd i hi (a + i - b) (by omega) (by omega)

instance (m : Memory β limit) (a n : Nat) : Decidable (Mapped m a n) :=
  inferInstanceAs (Decidable (∀ i, i < n → (m.cell (a + i)).isSome))

instance (a n b k : Nat) : Decidable (Apart a n b k) :=
  inferInstanceAs (Decidable (∀ i, i < n → ∀ j, j < k → a + i ≠ b + j))

instance [DecidableEq β] (m : Memory β limit) (a : Nat) (xs : List β) :
    Decidable (Holds m a xs) :=
  inferInstanceAs (Decidable (∀ i, i < xs.length → m.cell (a + i) = xs[i]?))

/-- The memory that holds one list from `base` on and nothing else. -/
def image (base : Nat) (xs : List β) (hbase : 0 < base) (hend : base + xs.length ≤ limit) :
    Memory β limit where
  cell p := if base ≤ p then xs[p - base]? else none
  null := by rw [if_neg (by omega)]
  bounded p hp := by
    split
    · exact List.getElem?_eq_none (by omega)
    · rfl

/-- A list without the terminator, followed in memory by one. -/
structure StringAt [OfNat β (nat_lit 0)] (m : Memory β limit) (a : Nat) (s : List β) : Prop where
  bytes : Holds m a (s ++ [0])
  nonzero : 0 ∉ s

section Strings

variable [OfNat β (nat_lit 0)] {m : Memory β limit} {a : Nat} {s t : List β}

theorem StringAt.terminator (h : StringAt m a s) : m.cell (a + s.length) = some 0 := by
  have hc := h.bytes s.length (by simp)
  simpa using hc

theorem StringAt.char (h : StringAt m a s) {i : Nat} (hi : i < s.length) :
    ∃ c, m.cell (a + i) = some c ∧ s[i]? = some c ∧ c ≠ 0 := by
  refine ⟨s[i], h.bytes.left.cell hi, List.getElem?_eq_getElem hi, ?_⟩
  intro h0
  exact h.nonzero (h0 ▸ List.getElem_mem hi)

/-- Up to its end a string can be read, and it reads zero only there. -/
theorem StringAt.read (h : StringAt m a s) {i : Nat} (hi : i ≤ s.length) :
    ∃ c, m.cell (a + i) = some c ∧ (c = 0 ↔ i = s.length) := by
  rcases Nat.lt_or_ge i s.length with hlt | hge
  · obtain ⟨c, hc, _, hne⟩ := h.char hlt
    exact ⟨c, hc, by simp [hne]; omega⟩
  · obtain rfl : i = s.length := by omega
    exact ⟨0, h.terminator, by simp⟩

theorem StringAt.bounds (h : StringAt m a s) : 0 < a ∧ a + s.length < limit := by
  have hb := h.bytes.mapped.bounds (by simp)
  rw [List.length_append, List.length_singleton] at hb
  omega

/-- What is read where a string parts from a prefix of it. -/
theorem StringAt.parted (h : StringAt m a (s ++ t)) :
    m.cell (a + s.length) = some (t.headD 0) := by
  cases t with
  | nil => simpa using h.terminator
  | cons c t => exact h.bytes.left.middle

/-- The end of a string is a string. -/
theorem StringAt.right (h : StringAt m a (s ++ t)) : StringAt m (a + s.length) t := by
  constructor
  · have hb := h.bytes
    rw [List.append_assoc] at hb
    exact hb.right
  · exact fun h0 => h.nonzero (List.mem_append_right s h0)

/-- The first character of a string and the string behind it. -/
theorem StringAt.next {c : β} (h : StringAt m a (c :: t)) :
    m.cell a = some c ∧ c ≠ 0 ∧ StringAt m (a + 1) t := by
  refine ⟨h.bytes 0 (Nat.zero_lt_succ _), ?_, StringAt.right (s := [c]) h⟩
  rintro rfl
  exact h.nonzero (.head t)

theorem StringAt.congr {m' : Memory β limit} (h : StringAt m a s)
    (hsame : ∀ i, i < s.length + 1 → m'.cell (a + i) = m.cell (a + i)) : StringAt m' a s := by
  refine ⟨fun i hi => ?_, h.nonzero⟩
  rw [hsame i (by simpa using hi), h.bytes i hi]

/-- Writing a terminated list right after a held one leaves their concatenation there as a
string, whatever is written after the terminator. -/
theorem stringAt_write {rest : List β} (ht : Holds m a t) (ht0 : 0 ∉ t) (hs0 : 0 ∉ s)
    (hm : Mapped m (a + t.length) (s ++ 0 :: rest).length) :
    StringAt (CellMemory.write m (a + t.length) (s ++ 0 :: rest)) a (t ++ s) := by
  have hkeep : Holds (CellMemory.write m (a + t.length) (s ++ 0 :: rest)) a t := by
    apply ht.write
    intro i hi j hj
    omega
  have hnew := holds_write m (a + t.length) (s ++ 0 :: rest) hm
  constructor
  · have hall := hkeep.append hnew
    rw [show t ++ (s ++ 0 :: rest) = (t ++ s ++ [0]) ++ rest by simp] at hall
    exact hall.left
  · simp [ht0, hs0]

theorem StringAt.write {b : Nat} {ys : List β} (h : StringAt m a s)
    (hd : Apart a (s.length + 1) b ys.length) : StringAt (write m b ys) a s :=
  ⟨h.bytes.write (by simpa using hd), h.nonzero⟩

end Strings

end CellMemory
