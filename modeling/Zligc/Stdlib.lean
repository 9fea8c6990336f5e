import Zligc.World
import Zligc.Slice

/-!
# Memory allocation in stdlib.zig

The library keeps no size with a block, so realloc and free pass std's allocator
the slice of length 0 at the pointer they are given.
-/
namespace Stdlib

open Effect Zig Zligc

/-- std's Allocator.realloc on bytes: an empty slice is a fresh allocation, a shorter slice stays
where it is, and a longer one is allocated anew and begins with the old bytes. -/
def reallocSlice (ptr : Option Nat) (len n : Nat) : Run World (Option Nat) := do
  match ptr, len with
  | some p, len + 1 =>
    if n ≤ len + 1 then
      return some p
    let some m ← alloc n | return none
    onMem (do Slice.fill m (← Slice.slice p (len + 1)))
    return some m
  | _, _ => alloc n

/-- std's Allocator.free over a buffer that never takes anything back. -/
def freeSlice (_ptr : Option Nat) (_len : Nat) : Run World Unit := pure ()

def malloc (size : Nat) : Run World (Option Nat) := do
  let some m ← alloc size | return none
  return some m

def calloc (_num size : Nat) : Run World (Option Nat) := do
  let some m ← alloc size | return none
  onMem (Slice.set m size 0)
  return some m

def realloc (ptr : Option Nat) (new_size : Nat) : Run World (Option Nat) := do
  let old_len := 0
  let some m ← reallocSlice ptr old_len new_size | return none
  return some m

def free (ptr : Option Nat) : Run World Unit := do
  let old_len := 0
  freeSlice ptr old_len

def aligned_alloc (_alignment size : Nat) : Run World (Option Nat) := malloc size

end Stdlib
