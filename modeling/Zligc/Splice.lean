import Mathlib.Data.List.TakeWhile
import Mathlib.Logic.Function.Basic
import Zligc.CellMemory

/-!
# Disjoint buffers of terminated lists

Every buffer of a family holds a list with its terminator. Bytes written into one of them splice its
list: with a terminator among them the list ends there, and without one they must end before its
end. The other buffers are as they were.
-/
namespace Splice

open CellMemory Function

variable {β ι : Type} {limit : Nat}

/-- The memories agree outside the buffers `d i` of `size i` cells. -/
def Beyond (d size : ι → Nat) (m m' : Memory β limit) : Prop :=
  ∀ p, (∀ i, p < d i ∨ d i + size i ≤ p) → m'.cell p = m.cell p

theorem Beyond.refl (d size : ι → Nat) (m : Memory β limit) : Beyond d size m m := fun _ _ => rfl

theorem Beyond.trans {d size : ι → Nat} {m m' m'' : Memory β limit} (h : Beyond d size m m')
    (h' : Beyond d size m' m'') : Beyond d size m m'' :=
  fun p hp => (h' p hp).trans (h p hp)

variable [OfNat β (nat_lit 0)]

/-- `n` mapped cells at `a` hold the list with its terminator. -/
structure Keeps (m : Memory β limit) (a n : Nat) (s : List β) : Prop where
  string : StringAt m a s
  room : s.length < n
  mapped : Mapped m a n

/-- The buffers hold the lists `S i` and do not overlap. -/
structure Family (d size : ι → Nat) (S : ι → List β) (m : Memory β limit) : Prop where
  keeps : ∀ i, Keeps m (d i) (size i) (S i)
  apart : ∀ i j, i ≠ j → Apart (d i) (size i) (d j) (size j)

/-- Bytes at the place `k` fit a buffer of `n` cells and leave a list in it. -/
structure Fits (n : Nat) (s : List β) (k : Nat) (bytes : List β) : Prop where
  place : k ≤ s.length
  room : k + bytes.length ≤ n
  ended : 0 ∈ bytes ∨ k + bytes.length ≤ s.length

section Buffers

variable {m : Memory β limit} {a n k : Nat} {s bytes : List β}

/-- A suffix of a list of the family. -/
theorem Family.suffix {d size : ι → Nat} {S : ι → List β} {i : ι} (h : Family d size S m)
    (hk : k ≤ (S i).length) : StringAt m (d i + k) ((S i).drop k) := by
  have hall := (h.keeps i).string
  rw [← List.take_append_drop k (S i)] at hall
  have hright := hall.right
  rwa [List.length_take, Nat.min_eq_left hk] at hright

/-- A buffer keeps its list when the bytes go elsewhere. -/
theorem Keeps.elsewhere {b : Nat} (h : Keeps m a n s) (ha : Apart a n b bytes.length) :
    Keeps (CellMemory.write m b bytes) a n s :=
  ⟨h.string.write (ha.mono h.room (Nat.le_refl _)), h.room, h.mapped.write _ _⟩

/-- Bytes without a terminator replace a part of the list. -/
theorem Keeps.write_inside (h : Keeps m a n s) (hend : k + bytes.length ≤ s.length)
    (h0 : 0 ∉ bytes) :
    Keeps (write m (a + k) bytes) a n (s.take k ++ bytes ++ s.drop (k + bytes.length)) := by
  have hroom := h.room
  have htake : (s.take k).length = k := by
    rw [List.length_take, Nat.min_eq_left (by omega)]
  have hbefore : Holds (write m (a + k) bytes) a (s.take k) := by
    refine (h.string.bytes.left.take k).write fun i hi j hj => ?_
    omega
  have hnew : Holds (write m (a + k) bytes) (a + (s.take k).length) bytes := by
    rw [htake]
    exact holds_write m _ _ (h.mapped.part (by omega) (by omega))
  have hbehind : Holds (write m (a + k) bytes) (a + (s.take k ++ bytes).length)
      (s.drop (k + bytes.length) ++ [0]) := by
    have hdrop := h.string.bytes.drop (i := k + bytes.length) (by rw [List.length_append]; omega)
    rw [List.drop_append_of_le_length hend] at hdrop
    rw [List.length_append, htake]
    refine hdrop.write fun i _ j hj => ?_
    omega
  refine ⟨⟨?_, ?_⟩, ?_, h.mapped.write _ _⟩
  · have hall := (hbefore.append hnew).append hbehind
    rwa [← List.append_assoc] at hall
  · rw [List.mem_append, List.mem_append, not_or, not_or]
    exact ⟨⟨fun hmem => h.string.nonzero (List.mem_of_mem_take hmem), h0⟩,
      fun hmem => h.string.nonzero (List.mem_of_mem_drop hmem)⟩
  · rw [List.length_append, List.length_append, htake, List.length_drop]
    omega

end Buffers

section Splicing

variable [DecidableEq β] {m : Memory β limit} {a n k : Nat} {s bytes : List β}

/-- The list after bytes were written at its place `k`. -/
def splice (s : List β) (k : Nat) (bytes : List β) : List β :=
  if 0 ∈ bytes then s.take k ++ bytes.takeWhile (· ≠ 0)
  else s.take k ++ bytes ++ s.drop (k + bytes.length)

/-- What is written up to its first terminator. -/
theorem terminated_split (h : 0 ∈ bytes) :
    ∃ rest, bytes = bytes.takeWhile (· ≠ 0) ++ 0 :: rest := by
  induction bytes with
  | nil => cases h
  | cons b bytes ih =>
    by_cases hb : b = 0
    · exact ⟨bytes, by simp [hb]⟩
    · obtain ⟨rest, hrest⟩ := ih (List.mem_of_ne_of_mem (Ne.symm hb) h)
      refine ⟨rest, ?_⟩
      rw [List.takeWhile_cons_of_pos (by simpa using hb), List.cons_append, ← hrest]

theorem before_terminator (bytes : List β) : 0 ∉ bytes.takeWhile (· ≠ 0) := by
  intro h0
  simpa using List.mem_takeWhile_imp h0

/-- Bytes that have a terminator end the list. -/
theorem Keeps.write_ended (h : Keeps m a n s) (hfit : Fits n s k bytes) (h0 : 0 ∈ bytes) :
    Keeps (write m (a + k) bytes) a n (s.take k ++ bytes.takeWhile (· ≠ 0)) := by
  obtain ⟨rest, hrest⟩ := terminated_split h0
  have htake : (s.take k).length = k := by
    rw [List.length_take, Nat.min_eq_left hfit.place]
  have hroom := hfit.room
  have hlen := congrArg List.length hrest
  rw [List.length_append, List.length_cons] at hlen
  refine ⟨?_, ?_, h.mapped.write _ _⟩
  · have hpart : Mapped m (a + (s.take k).length)
        (bytes.takeWhile (· ≠ 0) ++ 0 :: rest).length := by
      rw [← hrest, htake]
      exact h.mapped.part (by omega) (by omega)
    have hwrite := stringAt_write (h.string.bytes.left.take k)
      (fun hmem => h.string.nonzero (List.mem_of_mem_take hmem)) (before_terminator bytes) hpart
    rwa [← hrest, htake] at hwrite
  · rw [List.length_append, htake]
    omega

theorem Keeps.write (h : Keeps m a n s) (hfit : Fits n s k bytes) :
    Keeps (write m (a + k) bytes) a n (splice s k bytes) := by
  unfold splice
  split
  · rename_i h0
    exact h.write_ended hfit h0
  · rename_i h0
    exact h.write_inside (hfit.ended.resolve_left h0) h0

/-- Bytes that fit one buffer of the family splice its list. -/
theorem Family.write [DecidableEq ι] {d size : ι → Nat} {S : ι → List β} {i : ι}
    (h : Family d size S m) (hfit : Fits (size i) (S i) k bytes) :
    Family d size (update S i (splice (S i) k bytes)) (write m (d i + k) bytes) ∧
      Beyond d size m (write m (d i + k) bytes) := by
  have hroom := hfit.room
  refine ⟨⟨fun j => ?_, h.apart⟩, fun p hp => write_outside _ _ _ _ ?_⟩
  · by_cases hj : j = i
    · subst hj
      rw [update_self]
      exact (h.keeps j).write hfit
    · rw [update_of_ne hj]
      exact (h.keeps j).elsewhere ((h.apart j i hj).part (by omega) (by omega))
  · have hout := hp i
    omega

end Splicing

end Splice
