import Zligc.Zig
import Zligc.Allocator
import Zligc.OsFile

/-!
# The state the library runs in

Memory, the static buffer behind the allocator, the operating system, and the
globals of stdio.zig. The File records are kept apart from the bytes of memory:
a stream pointer leads to one of the three static records or to one that fopen
has put into the static buffer.
-/
namespace Zligc

open Effect CellMemory Zig Allocator OsFile

/-- Where a `*File` points. -/
inductive Stream where
  | stdin_file | stdout_file | stderr_file
  | created (addr : Nat)
  deriving DecidableEq, Repr

/-- What a run did with the streams: it looked a handle up, it ran initStreams, it used a record
that held a handle or one that did not. -/
inductive Event where
  | lookup
  | initStreams
  | dereference (fd : Stream) (defined : Bool)
  deriving DecidableEq, Repr

/-- A record without a handle is undefined; it reads as `undefinedHandle`. Undefined memory reads
as `undefinedByte`, and `fresh` makes of each byte of a block what is there when the block has been
allocated. The events are kept for the proofs and read by no function. -/
structure World where
  mem : Mem
  fixed : FixedBuffer
  kernel : Kernel
  resolved : UInt8
  records : Stream → Option Int32
  undefinedHandle : Int32
  undefinedByte : UInt8
  fresh : Nat → UInt8 → UInt8
  events : List Event

/-- A process before its first call. -/
structure Started (w : World) : Prop where
  resolved : w.resolved = 0
  records : ∀ fd, w.records fd = none
  events : w.events = []

/-- 32 KiB of static buffer at address 1. -/
def firstBuffer : FixedBuffer := ⟨1, 0, Nat.zero_le _, Nat.one_pos, by decide⟩

/-- A started process with a memory, an operating system and an empty static buffer. Its fresh
blocks hold what was there. -/
def startWorld (mem : Mem) (kernel : Kernel) : World where
  mem := mem
  fixed := firstBuffer
  kernel := kernel
  resolved := 0
  records _ := none
  undefinedHandle := -1431655766
  undefinedByte := 0xaa
  fresh _ b := b
  events := []

/-- The first static buffer as memory, holding the bytes 7. -/
def firstMem : Mem where
  cell p := if 1 ≤ p ∧ p ≤ capacity then some 7 else none
  null := rfl
  bounded p hp := by
    rw [if_neg]
    unfold capacity
    omega

variable {α : Type}

/-- Run a program that only needs the memory. -/
def onMem (x : Run Mem α) : Run World α := fun w =>
  match x.run w.mem with
  | .ok a m => .ok a { w with mem := m }
  | .error e m => .error e { w with mem := m }

/-- A total step that computes a result and the next state. -/
def step (f : World → α × World) : Run World α := fun w => .ok (f w).1 (f w).2

/-- Set aside `n` bytes of the static buffer with an alignment; null stands for the error. -/
def reserve (n alignment : Nat) : Run World (Option Nat) := step fun w =>
  match w.fixed.alloc n alignment with
  | none => (none, w)
  | some (p, fixed) => (some p, { w with fixed })

/-- `allocator.alloc` of `n` bytes, which are undefined. -/
def alloc (n : Nat) : Run World (Option Nat) := do
  let some p ← reserve n 1 | return none
  step fun w => (some p, { w with mem := change w.mem p n w.fresh })

@[simp] theorem step_run (f : World → α × World) (w : World) :
    (step f).run w = .ok (f w).1 (f w).2 := rfl

@[simp] theorem run_onMem (x : Run Mem α) (w : World) :
    (onMem x).run w =
      match x.run w.mem with
      | .ok a m => .ok a { w with mem := m }
      | .error e m => .error e { w with mem := m } := rfl

theorem reserve_none {n alignment : Nat} {w : World} (h : w.fixed.alloc n alignment = none) :
    (reserve n alignment).run w = .ok none w := by
  rw [reserve, step_run, h]

theorem reserve_some {n alignment p : Nat} {fixed : FixedBuffer} {w : World}
    (h : w.fixed.alloc n alignment = some (p, fixed)) :
    (reserve n alignment).run w = .ok (some p) { w with fixed } := by
  rw [reserve, step_run, h]

theorem alloc_none {n : Nat} {w : World} (h : w.fixed.alloc n 1 = none) :
    (alloc n).run w = .ok none w := by
  rw [alloc, bind_ok (reserve_none h)]
  rfl

theorem alloc_some {n p : Nat} {fixed : FixedBuffer} {w : World}
    (h : w.fixed.alloc n 1 = some (p, fixed)) :
    (alloc n).run w = .ok (some p) { w with fixed, mem := change w.mem p n w.fresh } := by
  rw [alloc, bind_ok (reserve_some h)]
  rfl

/-- A program that leaves memory as it was. -/
theorem onMem_same {x : Run Mem α} {w : World} {a : α} (h : x.run w.mem = .ok a w.mem) :
    (onMem x).run w = .ok a w := by
  rw [run_onMem, h]

end Zligc
