/-!
# The static buffer of allocator.zig

`fixed` is std's FixedBufferAllocator over the 32 KiB `buffer`: it serves a
request with the next bytes that have the alignment asked for, and it never
takes any back.
-/
namespace Allocator

/-- The length of `buffer`. -/
def capacity : Nat := 1024 * 32

/-- `fixed`: the address of `buffer`, and how many of its bytes are used. -/
structure FixedBuffer where
  base : Nat
  end_index : Nat
  used_le : end_index ≤ capacity
  base_pos : 0 < base
  base_le : base + capacity ≤ 0x10000000000000000

theorem FixedBuffer.same {f f' : FixedBuffer} (hbase : f'.base = f.base)
    (hend : f'.end_index = f.end_index) : f' = f := by
  cases f
  cases f'
  simp_all

/-- The bytes to skip to get from `addr` to a multiple of the alignment. -/
def march (addr alignment : Nat) : Nat :=
  if addr % alignment = 0 then 0 else alignment - addr % alignment

/-- The address of `n` fresh bytes, unless they do not fit. -/
def FixedBuffer.alloc (f : FixedBuffer) (n alignment : Nat) : Option (Nat × FixedBuffer) :=
  let adjusted := f.end_index + march (f.base + f.end_index) alignment
  if h : adjusted + n ≤ capacity then
    some (f.base + adjusted,
      { f with end_index := adjusted + n, used_le := h })
  else none

/-- What a request gets lies behind the used part, inside the buffer, and is used from then on. -/
theorem alloc_spec {f f' : FixedBuffer} {n alignment p : Nat}
    (h : f.alloc n alignment = some (p, f')) :
    f'.base = f.base ∧ f.base + f.end_index ≤ p ∧ p + n = f.base + f'.end_index := by
  unfold FixedBuffer.alloc at h
  dsimp only at h
  split at h
  · obtain ⟨rfl, rfl⟩ := Prod.mk.inj (Option.some.inj h)
    exact ⟨rfl, by omega, by dsimp only; omega⟩
  · cases h

/-- Bytes are served right behind the used part. -/
theorem alloc_bytes (f : FixedBuffer) (n : Nat) :
    f.alloc n 1 = if h : f.end_index + n ≤ capacity then
      some (f.base + f.end_index, { f with end_index := f.end_index + n, used_le := h })
    else none := by
  simp [FixedBuffer.alloc, march, Nat.mod_one]

end Allocator
