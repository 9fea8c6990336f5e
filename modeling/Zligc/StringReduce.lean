import Zligc.StringBuffer
import Zligc.StringMemory

/-!
# The copying functions as memcpy and memset

On a terminated source every copying function does to memory what a memcpy of a
part of it does, followed by a memset or one NUL byte.
-/
namespace ZligcString

open Effect CellMemory Zig

/-- Copying the string `s` at `src`, whole or up to a bound. -/
structure CopyLaws (m : Mem) (src : Nat) (s : List UInt8) : Prop where
  strcpy : ∀ d, Mapped m d (s.length + 1) → Apart src (s.length + 1) d (s.length + 1) →
    ∃ m', (strcpy d src).run m = .ok d m' ∧ (memcpy d src (s.length + 1)).run m = .ok d m'
  strncpy : ∀ d n, Mapped m d n → Apart src (s.length + 1) d n →
    ∃ m', (strncpy d src n).run m = .ok d m' ∧
      (do
        let _ ← memcpy d src (min n s.length)
        let _ ← memset (d + min n s.length) 0 (n - min n s.length)
        return d).run m = .ok d m' ∧
      (∀ p, p < d ∨ d + n ≤ p → m'.cell p = m.cell p) ∧
      Holds m' d (s.take n ++ List.replicate (n - s.length) 0) ∧
      (n ≤ s.length → ∀ i, i < n → m'.cell (d + i) ≠ some 0)
  strcat : ∀ d cur, StringAt m d cur → Mapped m (d + cur.length) (s.length + 1) →
    Apart src (s.length + 1) (d + cur.length) (s.length + 1) →
    ∃ m', (strcat d src).run m = .ok d m' ∧
      (do
        let _ ← ZligcString.strcpy (d + (← strlen d)) src
        return d).run m = .ok d m'
  strncat : ∀ d cur n, StringAt m d cur → Mapped m (d + cur.length) (min n s.length + 1) →
    Apart src (s.length + 1) (d + cur.length) (min n s.length + 1) →
    ∃ m', (strncat d src n).run m = .ok d m' ∧
      (do
        let e := d + (← strlen d)
        let _ ← memcpy e src (min n s.length)
        store e (min n s.length) 0
        return d).run m = .ok d m' ∧
      (s.length ≤ n → (ZligcString.strcat d src).run m = .ok d m')

section Reduction

variable {m : Mem} {d src n : Nat} {s cur : List UInt8}

/-- The first bytes of a string by memcpy. -/
theorem memcpy_take (h : StringAt m src s) (hm : Mapped m d (min n s.length))
    (ha : Apart src (s.length + 1) d (min n s.length)) :
    (memcpy d src (min n s.length)).run m = .ok d (write m d (s.take n)) := by
  have hlen : (s.take n).length = min n s.length := List.length_take
  rw [← hlen] at hm ha ⊢
  exact memcpy_run (h.bytes.left.take n) hm (ha.mono (by omega) (Nat.le_refl _))

theorem strcpy_reduces (h : StringAt m src s) (hm : Mapped m d (s.length + 1))
    (ha : Apart src (s.length + 1) d (s.length + 1)) :
    (memcpy d src (s.length + 1)).run m = .ok d (write m d (s ++ [0])) := by
  have hlen : (s ++ [0]).length = s.length + 1 := by simp
  rw [← hlen] at hm ha ⊢
  exact memcpy_run h.bytes hm ha

theorem strncpy_reduces (h : StringAt m src s) (hm : Mapped m d n)
    (ha : Apart src (s.length + 1) d n) :
    (do
      let _ ← memcpy d src (min n s.length)
      let _ ← memset (d + min n s.length) 0 (n - min n s.length)
      return d).run m =
      .ok d (write m d (s.take n ++ List.replicate (n - s.length) 0)) := by
  have hcopy := memcpy_take h (hm.part (Nat.le_refl d) (by omega))
    (ha.mono (Nat.le_refl _) (by omega : min n s.length ≤ n))
  have hrest : n - min n s.length = n - s.length := by omega
  have hrest' : Mapped (write m d (s.take n)) (d + min n s.length) (n - s.length) :=
    (hm.part (by omega) (by omega)).write _ _
  have hfill := memset_run 0 hrest'
  rw [widen_zero] at hfill
  rw [bind_ok hcopy, hrest, bind_ok hfill, write_append, List.length_take]
  rfl

theorem strncat_reduces (hcur : StringAt m d cur) (h : StringAt m src s)
    (hm : Mapped m (d + cur.length) (min n s.length + 1))
    (ha : Apart src (s.length + 1) (d + cur.length) (min n s.length + 1)) :
    (do
      let e := d + (← strlen d)
      let _ ← memcpy e src (min n s.length)
      store e (min n s.length) 0
      return d).run m =
      .ok d (write m (d + cur.length) (s.take n ++ [0])) := by
  have hcopy := memcpy_take h (hm.part (Nat.le_refl _) (by omega))
    (ha.mono (Nat.le_refl _) (by omega : min n s.length ≤ min n s.length + 1))
  have hmap : ((write m (d + cur.length) (s.take n)).cell
      (d + cur.length + min n s.length)).isSome := by
    rw [write_mapped]
    exact hm _ (by omega)
  rw [bind_ok (strlen_run hcur), bind_ok hcopy, bind_ok (store_run 0 hmap), write_append,
    List.length_take]
  rfl

/-- Below the length of the string a bounded copy has no terminator. -/
theorem no_terminator {m' : Mem} (h0 : 0 ∉ s) (hle : n ≤ s.length)
    (hh : Holds m' d (s.take n ++ List.replicate (n - s.length) 0)) (i : Nat) (hi : i < n) :
    m'.cell (d + i) ≠ some 0 := by
  have hlt : i < (s.take n).length := by rw [List.length_take]; omega
  rw [hh.left.cell hlt]
  intro hzero
  exact h0 (List.mem_of_mem_take (Option.some.inj hzero ▸ List.getElem_mem hlt))

end Reduction

theorem copy_laws {m : Mem} {src : Nat} {s : List UInt8} (h : StringAt m src s) :
    CopyLaws m src s := by
  constructor
  · intro d hm ha
    exact ⟨_, strcpy_run h hm ha, strcpy_reduces h hm ha⟩
  · intro d n hm ha
    have hlen : (s.take n ++ List.replicate (n - s.length) 0).length = n := by
      rw [List.length_append, List.length_take, List.length_replicate]
      omega
    have hheld := holds_write m d (s.take n ++ List.replicate (n - s.length) 0) (hlen.symm ▸ hm)
    refine ⟨_, strncpy_run h hm ha, strncpy_reduces h hm ha, ?_, hheld, ?_⟩
    · intro p hp
      exact write_outside _ _ _ _ (by omega)
    · exact fun hle => no_terminator h.nonzero hle hheld
  · intro d cur hcur hm ha
    refine ⟨_, strcat_run hcur h hm ha, ?_⟩
    rw [bind_ok (strlen_run hcur), bind_ok (strcpy_run h hm ha)]
    rfl
  · intro d cur n hcur hm ha
    refine ⟨_, strncat_run hcur h hm ha, strncat_reduces hcur h hm ha, ?_⟩
    intro hle
    rw [Nat.min_eq_right hle] at hm ha
    rw [List.take_of_length_le hle]
    exact strcat_run hcur h hm ha

theorem copy_laws_example : CopyLaws exampleMem 1 [97, 98] := copy_laws ⟨by decide, by decide⟩

end ZligcString
