import Zligc.StdlibContents

/-!
# Whether released memory becomes available again

free passes the allocator an empty slice, fclose gives the File record back to
nobody, and neither does fopen when it fails after creating one. So a program
that has released everything finds the buffer as it was at the start only if it
never took a byte of it.
-/
namespace Client

open Effect Zig Zligc Allocator Stdio

/-- The calls of a program that uses memory and streams: the heap functions and the writes to their
blocks, fopen and fclose. -/
def Call.Listed : Call → Prop
  | .heap (.aligned_alloc _ _) => False
  | .heap _ => True
  | .stdio (.fopen _ _) | .stdio (.fclose _) => True
  | .stdio _ => False

/-- The call cannot take anything from a buffer of which nothing is used: it requests no byte, or
more of them than there are. -/
def Call.Frugal : Call → Prop
  | .heap c => ∀ n, c.requested = some n → n = 0 ∨ capacity < n
  | .stdio (.fopen _ _) => False
  | .stdio _ => True

/-- malloc returns a block of `n` bytes. -/
def Serves (w : World) (n : Nat) : Prop := ∃ p w', (Stdlib.malloc n).run w = .ok (some p) w'

/-- What could be had in `w₀`, a block or the record of a stream, can be had in `w`. -/
structure Available (w₀ w : World) : Prop where
  block : ∀ n, Serves w₀ n → Serves w n
  record : (w₀.fixed.alloc sizeOfFile sizeOfFile).isSome → (w.fixed.alloc sizeOfFile sizeOfFile).isSome

/-- A fopen that fails leaves the allocator as it was. -/
def FailsCleanly (w : World) (_ : Held) : Call → Prop
  | .stdio (.fopen filename mode) =>
    ∀ w', (fopen filename mode).run w = .ok none w' → w'.fixed = w.fixed
  | _ => True

section Empty

variable {w w' : World} {h h' : Held} {c : Call} {calls : List Call} {a : Answer} {n : Nat}

/-- An empty buffer has room for the record of a stream. -/
theorem record_fits {f : FixedBuffer} (hempty : f.end_index = 0) :
    ∃ p f', f.alloc sizeOfFile sizeOfFile = some (p, f') := by
  have hmarch : march (f.base + f.end_index) sizeOfFile ≤ sizeOfFile := by
    unfold march
    split <;> omega
  have hroom : f.end_index + march (f.base + f.end_index) sizeOfFile + sizeOfFile ≤ capacity := by
    unfold sizeOfFile capacity at *
    omega
  rw [FixedBuffer.alloc, dif_pos hroom]
  exact ⟨_, _, rfl⟩

/-- Whether it opens a stream or not, a fopen that gets a record keeps it. -/
theorem fopen_takes (filename mode : Nat) {r : Option Stream} {p : Nat} {f : FixedBuffer}
    (ha : w.fixed.alloc sizeOfFile sizeOfFile = some (p, f))
    (hr : (fopen filename mode).run w = .ok r w') : w.fixed.end_index < w'.fixed.end_index := by
  obtain ⟨_, hle, hend⟩ := alloc_spec ha
  rw [fopen_run filename mode ha] at hr
  have hused : f.end_index ≤ w'.fixed.end_index := (openInto_grows _ _ hr).used
  unfold sizeOfFile at hend
  omega

/-- A fopen that fails leaves the allocator as it was exactly if there was no room for a record. -/
theorem fopen_clean_iff (filename mode : Nat) (hr : (fopen filename mode).run w = .ok none w') :
    w'.fixed = w.fixed ↔ w.fixed.alloc sizeOfFile sizeOfFile = none := by
  cases ha : w.fixed.alloc sizeOfFile sizeOfFile with
  | none =>
    rw [fopen_full filename mode ha] at hr
    cases hr
    exact iff_of_true rfl rfl
  | some s =>
    have htaken := fopen_takes filename mode ha hr
    refine iff_of_false (fun hsame => ?_) nofun
    rw [hsame] at htaken
    exact Nat.lt_irrefl _ htaken

/-- A request leaves the buffer empty if it takes nothing of it. -/
theorem request_empty_iff {c : Stdlib.Call} {r : Option Nat} (hempty : w.fixed.end_index = 0)
    (hc : c.requested = some n) (hr : c.run.run w = .ok r w') :
    w'.fixed.end_index = 0 ↔ n = 0 ∨ capacity < n := by
  rcases Stdlib.request_taken hc hr with ⟨ha, _, hfixed⟩ | ⟨p, ha, _⟩
  · rw [alloc_bytes] at ha
    split at ha
    · cases ha
    · rename_i hfull
      rw [hfixed]
      exact iff_of_true hempty (Or.inr (by omega))
  · rw [alloc_bytes] at ha
    split at ha
    · have hend : w.fixed.end_index + n = w'.fixed.end_index :=
        congrArg FixedBuffer.end_index (Prod.mk.inj (Option.some.inj ha)).2
      omega
    · cases ha

theorem Call.Frugal.failsCleanly (hfrugal : c.Frugal) (w : World) (h : Held) :
    FailsCleanly w h c := by
  cases c with
  | heap c => exact trivial
  | stdio c =>
    cases c with
    | fopen filename mode => exact hfrugal.elim
    | _ => exact trivial

/-- A call leaves the buffer empty exactly if it is frugal. -/
theorem call_empty_iff (hlisted : c.Listed) (hempty : w.fixed.end_index = 0)
    (hr : c.run.run w = .ok a w') : w'.fixed.end_index = 0 ↔ c.Frugal := by
  cases c with
  | heap c =>
    obtain ⟨r, hcall, _⟩ := of_map_ok hr
    cases hc : c.requested with
    | none =>
      rw [Stdlib.other_fixed hc hcall]
      simp [Call.Frugal, hc, hempty]
    | some n =>
      rw [request_empty_iff hempty hc hcall]
      simp [Call.Frugal, hc]
  | stdio c =>
    obtain ⟨r, hcall, _⟩ := of_map_ok hr
    cases c with
    | fopen filename mode =>
      obtain ⟨p, f, ha⟩ := record_fits hempty
      exact iff_of_false (Nat.ne_zero_of_lt (fopen_takes filename mode ha hcall)) id
    | fclose stream =>
      obtain ⟨_, hclose, _⟩ := of_map_ok hcall
      rw [fclose_fixed hclose]
      exact iff_of_true hempty trivial
    | _ => exact absurd hlisted id

/-- A run leaves the buffer empty exactly if all of its calls are frugal: what one call has taken
stays taken. -/
theorem run_empty_iff (hempty : w.fixed.end_index = 0) (hlisted : ∀ c ∈ calls, c.Listed)
    (hrun : AnyRun w h calls w' h') : w'.fixed.end_index = 0 ↔ ∀ c ∈ calls, c.Frugal := by
  induction hrun with
  | nil w h => simp [hempty]
  | cons _ hr hrest ih =>
    have hfirst := call_empty_iff (hlisted _ List.mem_cons_self) hempty hr
    have hlater := fun h0 => ih h0 fun c hc => hlisted c (List.mem_cons_of_mem _ hc)
    rw [List.forall_mem_cons, ← hfirst]
    constructor
    · intro hend
      have hmid := Nat.le_zero.mp (hend ▸ (runs_grow hrest).used)
      exact ⟨hmid, (hlater hmid).mp hend⟩
    · exact fun ⟨hmid, hfrugal⟩ => (hlater hmid).mpr hfrugal

/-- Everything is available again exactly if the buffer is empty again. -/
theorem available_iff (hempty : w.fixed.end_index = 0) (hgrows : Grows w w') :
    Available w w' ↔ w'.fixed.end_index = 0 := by
  constructor
  · intro hav
    obtain ⟨p, w'', hr⟩ := hav.block capacity ⟨_, _, Stdlib.malloc_fits (by omega)⟩
    by_contra hused
    rw [Stdlib.malloc_full (by omega)] at hr
    cases hr
  · intro hend
    have hfixed : w'.fixed = w.fixed := FixedBuffer.same hgrows.base (hend.trans hempty.symm)
    constructor
    · rintro n ⟨p, w'', hr⟩
      by_cases hfit : w.fixed.end_index + n ≤ capacity
      · exact ⟨_, _, Stdlib.malloc_fits (hfixed ▸ hfit)⟩
      · rw [Stdlib.malloc_full (by omega)] at hr
        cases hr
    · rw [hfixed]
      exact id

end Empty

/-- In a program that starts with an empty buffer and has released all it got, what was available
at the start is available again, and every fopen that failed has left the allocator alone, exactly
if no call ever took a byte. -/
theorem released_available_iff {w w' : World} {calls : List Call} (hempty : w.fixed.end_index = 0)
    (hlisted : ∀ c ∈ calls, c.Listed) (hrun : AnyRun w nothing calls w' nothing) :
    Runs FailsCleanly w nothing calls w' nothing ∧ Available w w' ↔ ∀ c ∈ calls, c.Frugal := by
  rw [available_iff hempty (runs_grow hrun), run_empty_iff hempty hlisted hrun,
    and_iff_right_iff_imp]
  intro hfrugal
  exact Runs.of_mem hrun fun c hc w h => (hfrugal c hc).failsCleanly w h

theorem released_available_iff_example : ∃ w,
    AnyRun Stdlib.heapWorld nothing
      [.heap (.malloc 0), .heap (.free (some 1)), .heap (.malloc 40000)] w nothing ∧
    Available Stdlib.heapWorld w := by
  have hrun : AnyRun Stdlib.heapWorld nothing
      [.heap (.malloc 0), .heap (.free (some 1)), .heap (.malloc 40000)] _ nothing :=
    .cons trivial rfl (.cons trivial rfl (.cons trivial rfl (.nil _ _)))
  refine ⟨_, hrun, ((released_available_iff rfl ?_ hrun).mpr ?_).2⟩
  · simp [Call.Listed]
  · simp [Call.Frugal, Stdlib.Call.requested, capacity]

/-- After a block of one byte has been freed, there is no block of the whole buffer any more. -/
theorem freed_unavailable : ∃ w,
    AnyRun Stdlib.heapWorld nothing [.heap (.malloc 1), .heap (.free (some 1))] w nothing ∧
    ¬ Available Stdlib.heapWorld w := by
  refine ⟨_, .cons trivial rfl (.cons trivial rfl (.nil _ _)), fun hav => ?_⟩
  obtain ⟨p, w', hr⟩ := hav.block capacity ⟨_, _, rfl⟩
  cases hr

end Client
