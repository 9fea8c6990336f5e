import Zligc.StdlibExit

/-!
# The end of main in crt.zig

The start-up code narrows what main returns with a checked cast and terminates the
process without looking at the handlers, while exit and quick_exit truncate their
argument after calling theirs.
-/
namespace Crt

open Effect Zig Stdlib

variable {argc argv : Nat} {envp : Words} {s s₀ : Process} {n : Int32}

/-- The process that main sees. -/
def passed (argc argv : Nat) (envp : Words) (s : Process) : Process :=
  { s with raw := ⟨argv, argc⟩, posix_environ_raw := envp }

def callMainWithArgs (main : Run Process Int32) (argc argv : Nat) (envp : Words) :
    Run Process UInt8 := do
  modify (passed argc argv envp)
  castU8 (← main)

/-- The last line of posixCallMainAndExit. -/
def exitWithMain (main : Run Process Int32) (argc argv : Nat) (envp : Words) :
    Run Process UInt8 := do
  osExit (← callMainWithArgs main argc argv envp)

/-- A process that starts in `s₀` and whose main ends in `s` by returning `n` terminates as if main
had called exit there: with the status `n mod 256`, which quick_exit gives as well, and after the
same handlers. -/
def EndsAsExit (x : Run Process UInt8) (s₀ s : Process) (n : Int32) : Prop :=
  ∃ status s₁ s₂ s₃, x.run s₀ = .ok status s₁ ∧ (exit n).run s = .ok status s₂ ∧
    (quick_exit n).run s = .ok status s₃ ∧ (status.toNat : Int) = n.toInt % 256 ∧
    s₁.called = s₂.called

theorem exitWithMain_run {main : Run Process Int32}
    (hmain : main.run (passed argc argv envp s₀) = .ok n s) :
    (exitWithMain main argc argv envp).run s₀ = (castU8 n : Run Process UInt8).run s := by
  have hcall : (callMainWithArgs main argc argv envp).run s₀ =
      (castU8 n : Run Process UInt8).run s := by
    rw [callMainWithArgs, bind_ok (EStateM.run_modify _ _), bind_ok hmain]
  rw [exitWithMain, EStateM.run_bind, hcall]
  cases (castU8 n : Run Process UInt8).run s with
  | ok status s₁ => rfl
  | error e s₁ => rfl

theorem castU8_lowByte (h : 0 ≤ n.toInt ∧ n.toInt < 256) :
    (castU8 n : Run Process UInt8).run s = .ok (lowByte n) s := by
  have hmod := lowByte_mod n
  rw [castU8_run s h]
  congr 1
  apply UInt8.toNat_inj.mp
  rw [UInt8.toNat_ofNat_of_lt' (by show _ < 256; omega)]
  omega

/-- Returning from main ends as exit does exactly for the values that fit a byte, in a process
without handlers. -/
theorem return_as_exit_iff {main : Run Process Int32}
    (hmain : main.run (passed argc argv envp s₀) = .ok n s) :
    EndsAsExit (exitWithMain main argc argv envp) s₀ s n ↔
      (0 ≤ n.toInt ∧ n.toInt < 256) ∧ handlers (s.funcs .exit_funcs) = [] := by
  rw [EndsAsExit, exitWithMain_run hmain]
  constructor
  · rintro ⟨status, s₁, s₂, s₃, hreturn, hexit, _, _, hcalled⟩
    have hfits : 0 ≤ n.toInt ∧ n.toInt < 256 := by
      by_contra hout
      rw [castU8_fault s hout] at hreturn
      cases hreturn
    rw [castU8_lowByte hfits] at hreturn
    rw [exit, terminate_run] at hexit
    cases hreturn
    cases hexit
    exact ⟨hfits, List.self_eq_append_right.mp hcalled⟩
  · rintro ⟨hfits, hnone⟩
    refine ⟨_, _, _, _, castU8_lowByte hfits, terminate_run _ s n, terminate_run _ s n,
      lowByte_mod n, ?_⟩
    rw [hnone, List.append_nil]

theorem return_as_exit_iff_example :
    EndsAsExit (exitWithMain (pure 3) 1 8 ⟨24, 0⟩) (started ⟨0, 0⟩ ⟨0, 0⟩)
      (started ⟨8, 1⟩ ⟨24, 0⟩) 3 :=
  (return_as_exit_iff rfl).mpr ⟨by decide, by decide⟩

/-- A main that returns -1 never terminates the process, where exit gives the status 255. -/
theorem return_hangs : fault? ((exitWithMain (pure (-1)) 1 8 ⟨24, 0⟩).run (started ⟨0, 0⟩ ⟨0, 0⟩)) =
      some .integerCast ∧
    ¬ EndsAsExit (exitWithMain (pure (-1)) 1 8 ⟨24, 0⟩) (started ⟨0, 0⟩ ⟨0, 0⟩)
      (started ⟨8, 1⟩ ⟨24, 0⟩) (-1) := by
  refine ⟨rfl, ?_⟩
  rintro ⟨status, s₁, s₂, s₃, hreturn, _⟩
  cases hreturn

end Crt
