import Zligc.StringCopy

/-!
# What memcpy and memset leave in memory

A forward copy is right also where the ranges overlap, as long as no byte is
overwritten before it has been read.
-/
namespace ZligcString

open Effect CellMemory Zig

variable {σ : Type} [HasMem σ] [Watched σ] {A : Nat → Nat → Prop} {m : Mem} {dest src count : Nat}
  {xs : List UInt8}

theorem copyForward_yields (h : Holds m src xs) (hm : Mapped m dest xs.length)
    (ha : ∀ i j, j < i → i < xs.length → src + i ≠ dest + j)
    (hA : ∀ i, i < xs.length → A src i) :
    Yields A m (copyForward dest src xs.length : Run σ Nat) dest (write m dest xs) := by
  have hlen := h.mapped.length_lt (by decide)
  apply Yields.bind (a := ()) (n := write m dest xs) ?_ (yields_pure dest)
  apply yields_while (fun i => i) (fun i => write m dest (xs.take i)) rfl (by simp)
    (k := xs.length) (by omega)
  · intro i hi u hu
    have htake : (xs.take i).length = i := by rw [List.length_take]; omega
    have hcell : (write m dest (xs.take i)).cell (src + i) = some xs[i] := by
      rw [write_outside, h.cell hi]
      by_contra hin
      exact ha i (src + i - dest) (by omega) hi (by omega)
    have hmap : ((write m dest (xs.take i)).cell (dest + i)).isSome := by
      rw [write_mapped]
      exact hm i hi
    have hadd : i + 1 < 0x10000000000000000 := by omega
    simp [hu, hi, hcell, hmap, hadd, hA i hi, write_take_succ m dest hi]
  · intro u hu
    rw [List.take_length] at hu
    simp [hu]

theorem memcpy_run (h : Holds m src xs) (hm : Mapped m dest xs.length)
    (ha : Apart src xs.length dest xs.length) :
    (memcpy dest src xs.length).run m = .ok dest (write m dest xs) :=
  (copyForward_yields h hm (fun i j hj hi => ha i hi j (by omega)) (A := fun _ _ => True)
    fun _ _ => trivial).run

theorem memset_yields (b : UInt8) (hm : Mapped m dest count) :
    Yields A m (memset dest (widen b) count : Run σ Nat) dest
      (write m dest (List.replicate count b)) := by
  have hlen := hm.length_lt (by decide)
  apply Yields.bind (a := ()) (n := write m dest (List.replicate count b)) ?_ (yields_pure dest)
  apply yields_while (fun i => i) (fun i => write m dest (List.replicate i b)) rfl (by simp)
    (k := count) (by omega)
  · intro i hi u hu
    have hmap : ((write m dest (List.replicate i b)).cell (dest + i)).isSome := by
      rw [write_mapped]
      exact hm i hi
    have hw : write (write m dest (List.replicate i b)) (dest + i) [b] =
        write m dest (List.replicate (i + 1) b) := by
      simpa using write_replicate_succ m dest [] i b
    have hadd : i + 1 < 0x10000000000000000 := by omega
    simp [hu, hi, hmap, hw, hadd]
  · intro u hu
    simp [hu]

theorem memset_run (b : UInt8) (hm : Mapped m dest count) :
    (memset dest (widen b) count).run m = .ok dest (write m dest (List.replicate count b)) :=
  (memset_yields b hm (A := fun _ _ => True)).run

end ZligcString
