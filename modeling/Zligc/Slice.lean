import Zligc.StringCopy

/-!
# Slices and terminated strings of the standard library

The few functions of std.mem and std.cstr that the library calls, and the
transfers between a slice and the bytes it stands for.
-/
namespace Slice

open Effect CellMemory Zig

/-- The bytes of `p[0..n]`. -/
def slice (p n : Nat) : Run Mem (List UInt8) :=
  while_ [] fun bs => do
    if bs.length < n then
      return .next (bs ++ [← load p bs.length])
    else
      return .done bs

/-- std.cstr.toSliceConst: the bytes before the terminator. -/
def toSliceConst (p : Nat) : Run Mem (List UInt8) := do
  slice p (← ZligcString.strlen p)

/-- std.mem.set over the `n` bytes at `p`. -/
def set (p n : Nat) (b : UInt8) : Run Mem Unit :=
  while_ 0 fun i => do
    if i < n then
      store p i b
      return .next (← add i 1)
    else
      return .done ()

/-- Let the slice at `p` begin with the given bytes. -/
def fill (p : Nat) : List UInt8 → Run Mem Unit
  | [] => pure ()
  | b :: bs => do
    store p 0 b
    fill (p + 1) bs

variable {m : Mem} {p n : Nat} {xs s : List UInt8}

theorem slice_run (h : Holds m p xs) : (slice p xs.length).run m = .ok xs m := by
  have hb := h.mapped.length_lt (by decide)
  refine loop_result (fun i => xs.take i) (fun _ => m) (by simp) rfl (k := xs.length) (by omega)
    ?_ ?_
  · intro i hi
    have hlen : (xs.take i).length = i := by rw [List.length_take]; omega
    simp [hlen, hi, h.cell hi]
  · simp

/-- A slice that is not mapped cannot be read. -/
theorem slice_fault (hn : n < 0x10000000000000000) (h : ¬ Mapped m p n) :
    (slice p n).run m = .error .segmentation m := by
  have hfirst : ∃ k, k < n ∧ m.cell (p + k) = none ∧ Mapped m p k := by
    by_contra hno
    refine h (fun i => ?_)
    induction i using Nat.strongRecOn with
    | ind i ih =>
      intro hi
      rw [Option.isSome_iff_ne_none]
      exact fun hnone => hno ⟨i, hi, hnone, fun j hj => ih j hj (Nat.lt_trans hj hi)⟩
  obtain ⟨k, hk, hnone, hmapped⟩ := hfirst
  obtain ⟨xs, hxs, rfl⟩ := hmapped.holds
  refine loop_fault (fun i => xs.take i) (fun _ => m) (by simp) rfl (k := xs.length) (by omega)
    ?_ ?_
  · intro i hi
    have hlen : (xs.take i).length = i := by rw [List.length_take]; omega
    have hlt : i < n := by omega
    simp [hlen, hlt, hxs.cell hi]
  · have hload : (load p xs.length : Run Mem UInt8).run m = .error .segmentation m := by
      simp [load, EStateM.run, HasMem.mem, HasMem.reading, hnone]
    simp only [List.take_length, if_pos hk]
    exact bind_error hload _

theorem toSliceConst_run (h : StringAt m p s) : (toSliceConst p).run m = .ok s m := by
  rw [toSliceConst, bind_ok (ZligcString.strlen_run h)]
  exact slice_run h.bytes.left

theorem fill_run {bs : List UInt8} (h : Mapped m p bs.length) :
    (fill p bs).run m = .ok () (write m p bs) := by
  induction bs generalizing m p with
  | nil => rw [write_nil]; rfl
  | cons b bs ih =>
    have hfirst : (m.cell (p + 0)).isSome := h 0 (Nat.succ_pos _)
    have hrest : Mapped (write m (p + 0) [b]) (p + 1) bs.length := by
      apply Mapped.write
      exact h.part (Nat.le_succ p) (by rw [List.length_cons]; omega)
    rw [fill, bind_ok (store_run b hfirst), ih hrest]
    exact congrArg (EStateM.Result.ok ()) (write_append m p [b] bs).symm

theorem set_run (b : UInt8) (h : Mapped m p n) :
    (set p n b).run m = .ok () (write m p (List.replicate n b)) := by
  have hb := h.length_lt (by decide)
  refine loop_result (fun i => i) (fun i => write m p (List.replicate i b)) rfl (by simp) (k := n)
    (by omega) ?_ ?_
  · intro i hi
    have hmap : ((write m p (List.replicate i b)).cell (p + i)).isSome := by
      rw [write_mapped]
      exact h i hi
    have hw : write (write m p (List.replicate i b)) (p + i) [b] =
        write m p (List.replicate (i + 1) b) := by
      simpa using write_replicate_succ m p [] i b
    have hadd : i + 1 < 0x10000000000000000 := by omega
    simp [hi, hmap, hw, hadd]
  · simp

end Slice
