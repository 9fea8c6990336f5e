import Zligc.StdioOpening
import Zligc.StdioOutput

/-!
# Files through fopen

fopen opens every file for writing and empties it, whatever the mode. What was
written to a file before is lost when it is opened again, and it cannot be read.
-/
namespace Stdio

open Effect CellMemory Zig Zligc OsFile Function

/-- A stream that fopen returns has a write-only descriptor of a file it has emptied. -/
structure Emptied (path : List UInt8) (w w' : World) (fd : Stream) (i : Nat) : Prop where
  created : standard fd = none
  opened : ∃ h, w'.records fd = some h ∧ w'.kernel.table h = some ⟨i, 0, false, true⟩
  named : w'.kernel.paths path = some i
  target : i = w.kernel.target path
  contents : w'.kernel.contents = update w.kernel.contents i []
  policy : w'.kernel.policy = w.kernel.policy

section Opened

variable {w w' : World} {filename mode : Nat} {fd : Stream}

/-- Reading such a stream delivers nothing. -/
theorem Emptied.fread {path : List UInt8} {i : Nat} (h : Emptied path w w' fd i) (buf : Nat)
    {size : Nat} (hsize : size < 0x10000000000000000) :
    ∃ w'', (Stdio.fread buf 1 size (some fd)).run w' = .ok 0 w'' := by
  obtain ⟨k, hrec, htable⟩ := h.opened
  have hlooked : (looked w').records fd = some k :=
    looked_record w' hrec fun n hn => by rw [h.created] at hn; cases hn
  have hread : ∃ w₁, (File.read fd size).run (looked w') = .ok ([], false) w₁ := by
    rw [File.read, apply_run, hlooked, looked_kernel, Option.getD_some]
    simp only [Kernel.read, htable, Bool.false_eq_true, if_false]
    exact ⟨_, rfl⟩
  obtain ⟨w₁, hread⟩ := hread
  refine ⟨w₁, ?_⟩
  rw [Stdio.fread, bind_ok (lookup_some fd w'), bind_ok (mul_run _ (by rwa [Nat.mul_one])),
    Nat.mul_one, bind_ok hread]
  rfl

end Opened

/-- The path "a" leads to a file that holds "x". -/
def heldWorld : World :=
  startWorld stringMem ((Kernel.started .lowest [120]).name [97] (some 0) (by decide))

end Stdio
