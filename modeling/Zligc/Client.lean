import Zligc.StdlibHeap
import Zligc.StdioOpening

/-!
# Programs that use the static buffer

The heap functions and the streams take their memory from the same buffer. A run
of a program is a sequence of calls of either kind; what the program still holds
is the blocks it has not freed and the streams it has not closed. No call moves
the buffer or gives back a byte of it.
-/
namespace Client

open Effect Zig Zligc Allocator Arena Stdio

inductive Call where
  | heap (c : Stdlib.Call)
  | stdio (c : Stdio.Call)
  deriving DecidableEq, Repr

/-- What a call returned: a block or a stream, if anything. -/
inductive Answer where
  | block (p : Option Nat)
  | stream (fd : Option Stream)
  deriving DecidableEq, Repr

def Call.run : Call → Run World Answer
  | .heap c => Answer.block <$> c.run
  | .stdio c => Answer.stream <$> c.run

/-- The blocks and streams that a program holds. -/
structure Held where
  blocks : List Block
  streams : List Stream
  deriving DecidableEq, Repr

def nothing : Held := ⟨[], []⟩

/-- The open streams after a call of stdio. -/
def streamsAfter (c : Stdio.Call) (fd : Option Stream) (held : List Stream) : List Stream :=
  match c, fd with
  | .fopen _ _, some fd | .fopen64 _ _, some fd => fd :: held
  | .freopen _ _ (some fd), none | .freopen64 _ _ (some fd), none => held.erase fd
  | .fclose (some fd), _ => held.erase fd
  | _, _ => held

/-- What the program holds after the call. -/
def Call.held (c : Call) (a : Answer) (h : Held) : Held :=
  match c, a with
  | .heap c, .block p => { h with blocks := c.live p h.blocks }
  | .stdio c, .stream fd => { h with streams := streamsAfter c fd h.streams }
  | _, _ => h

/-- The runs in which every call returns and meets a condition on the state and on what the program
holds before it. -/
inductive Runs (meets : World → Held → Call → Prop) :
    World → Held → List Call → World → Held → Prop where
  | nil (w : World) (h : Held) : Runs meets w h [] w h
  | cons {w w' w'' : World} {h h' : Held} {c : Call} {calls : List Call} {a : Answer} :
      meets w h c → c.run.run w = .ok a w' → Runs meets w' (c.held a h) calls w'' h' →
      Runs meets w h (c :: calls) w'' h'

/-- Any run at all. -/
abbrev AnyRun : World → Held → List Call → World → Held → Prop := Runs fun _ _ _ => True

section Invariants

variable {P Q : World → Held → Call → Prop} {w w' : World} {h h' : Held} {calls : List Call}

/-- The condition of a run may be replaced by one that follows from it in the states that an
invariant allows. -/
theorem Runs.weaken {I : World → Prop} (hinit : I w)
    (hstep : ∀ w w' c a, I w → (Call.run c).run w = .ok a w' → I w')
    (himp : ∀ w w' h c a, I w → (Call.run c).run w = .ok a w' → P w h c → Q w h c)
    (hrun : Runs P w h calls w' h') : Runs Q w h calls w' h' := by
  induction hrun with
  | nil w h => exact .nil w h
  | cons hc hr _ ih =>
    exact .cons (himp _ _ _ _ _ hinit hr hc) hr (ih (hstep _ _ _ _ hinit hr))

/-- Calls that meet a condition wherever they are made. -/
theorem Runs.of_mem (hrun : AnyRun w h calls w' h') (hmeets : ∀ c ∈ calls, ∀ w h, P w h c) :
    Runs P w h calls w' h' := by
  induction hrun with
  | nil w h => exact .nil w h
  | cons _ hr _ ih =>
    exact .cons (hmeets _ List.mem_cons_self _ _) hr
      (ih fun c hc => hmeets c (List.mem_cons_of_mem _ hc))

end Invariants

/-- The buffer is where it was, and no less of it is used. -/
structure Grows (w w' : World) : Prop where
  base : w'.fixed.base = w.fixed.base
  used : w.fixed.end_index ≤ w'.fixed.end_index

theorem Grows.refl (w : World) : Grows w w := ⟨rfl, Nat.le_refl _⟩

theorem Grows.trans {w w' w'' : World} (h : Grows w w') (h' : Grows w' w'') : Grows w w'' :=
  ⟨h'.base.trans h.base, Nat.le_trans h.used h'.used⟩

/-- A later state with the same buffer. -/
theorem Grows.same {w w₁ w' : World} (h : Grows w w₁) (hfixed : w'.fixed = w₁.fixed) :
    Grows w w' := by
  constructor
  · rw [hfixed, h.base]
  · rw [hfixed]
    exact h.used

section Growth

variable {w w' w₁ : World}

/-- A later state in which the allocator has served something. -/
theorem Grows.served {n alignment addr : Nat} {f : FixedBuffer} (h : Grows w w₁)
    (ha : w₁.fixed.alloc n alignment = some (addr, f)) (hfixed : w'.fixed = f) : Grows w w' := by
  obtain ⟨hbase, hle, hend⟩ := alloc_spec ha
  have hused := h.used
  constructor
  · rw [hfixed, hbase, h.base]
  · rw [hfixed]
    omega

theorem looked_fixed (w : World) : (looked w).fixed = w.fixed := by
  unfold looked
  split <;> rfl

/-- The calls that open and close nothing. -/
theorem grows_discipline (w : World) :
    Discipline (Grows w) (fun _ => Grows w) (fun _ => Grows w) (Grows w) where
  lookup handle w₁ h := by
    rw [lookup_run]
    cases handle with
    | some fd => exact h.same (looked_fixed w₁)
    | none => exact h.same (looked_fixed w₁)
  use fd f _ w₁ h := by
    rw [apply_run]
    exact h.same rfl
  paths ps f failed _ w₁ h := by
    rw [onPaths_run]
    cases ha : w₁.fixed.alloc (w₁.kernel.policy.scratchFor ps) 1 with
    | none => exact h
    | some r => exact h.served ha rfl
  again _ _ h := h
  between _ _ h := h
  memory w₁ m h := h.same rfl
  pending_memory _ w₁ m h := h.same rfl
  used_memory _ w₁ m h := h.same rfl
  stopped _ h := h
  pending_stopped _ _ h := h

theorem openInto_grows (filename : Nat) (fd : Stream) {r : Option Stream}
    (h : (openInto filename fd).run w = .ok r w') : Grows w w' := by
  rcases openInto_cases filename fd w with ⟨e, m, hrun⟩ | ⟨path, m, r', w₁, _, hrun, _, hopening⟩
  · rw [hrun] at h
    cases h
  · rw [hrun] at h
    cases h
    cases hopening with
    | failed _ hs => exact ⟨hs.base, hs.used⟩
    | opened _ hs => exact ⟨hs.base, hs.used⟩

theorem fopen_grows (filename mode : Nat) {r : Option Stream}
    (h : (fopen filename mode).run w = .ok r w') : Grows w w' := by
  cases ha : w.fixed.alloc sizeOfFile sizeOfFile with
  | none =>
    rw [fopen_full filename mode ha] at h
    cases h
    exact .refl w
  | some s =>
    rw [fopen_run filename mode ha] at h
    exact ((Grows.refl w).served ha rfl).trans (openInto_grows _ _ h)

theorem freopen_grows {filename : Option Nat} (mode : Nat) {stream r : Option Stream}
    (h : (freopen filename mode stream).run w = .ok r w') : Grows w w' := by
  cases filename with
  | none => cases h
  | some filename =>
    cases stream with
    | none =>
      rw [freopen_eq, bind_error (lookup_none w)] at h
      cases h
    | some fd =>
      rw [freopen_run] at h
      have hclosed : (closed fd (looked w)).fixed = w.fixed := looked_fixed w
      exact ((Grows.refl w).same hclosed).trans (openInto_grows _ _ h)

theorem fclose_fixed {stream : Option Stream} {r : Int32}
    (h : (fclose stream).run w = .ok r w') : w'.fixed = w.fixed := by
  cases stream with
  | none =>
    rw [fclose, bind_error (lookup_none w)] at h
    cases h
  | some fd =>
    rw [fclose_run] at h
    cases h
    exact looked_fixed w

theorem stdio_grows {c : Stdio.Call} {r : Option Stream} (h : c.run.run w = .ok r w') :
    Grows w w' := by
  by_cases hopens : c.Opens
  · cases c with
    | fopen filename mode | fopen64 filename mode => exact fopen_grows filename mode h
    | freopen _ mode | freopen64 _ mode => exact freopen_grows mode h
    | fclose stream =>
      obtain ⟨_, hrun, _⟩ := of_map_ok h
      exact (Grows.refl w).same (fclose_fixed hrun)
    | _ => exact absurd hopens id
  · have hrun := (grows_discipline w).call c hopens w (.refl w)
    rw [h] at hrun
    exact hrun

theorem heap_grows {c : Stdlib.Call} {r : Option Nat} (h : c.run.run w = .ok r w') :
    Grows w w' := by
  cases hc : c.requested with
  | none => exact (Grows.refl w).same (Stdlib.other_fixed hc h)
  | some n =>
    rcases Stdlib.request_taken hc h with ⟨_, _, hfixed⟩ | ⟨p, ha, _⟩
    · exact (Grows.refl w).same hfixed
    · exact (Grows.refl w).served ha rfl

theorem call_grows {c : Call} {a : Answer} (h : c.run.run w = .ok a w') : Grows w w' := by
  cases c with
  | heap c =>
    obtain ⟨_, hrun, _⟩ := of_map_ok h
    exact heap_grows hrun
  | stdio c =>
    obtain ⟨_, hrun, _⟩ := of_map_ok h
    exact stdio_grows hrun

end Growth

theorem runs_grow {P : World → Held → Call → Prop} {w w' : World} {h h' : Held}
    {calls : List Call} (hrun : Runs P w h calls w' h') : Grows w w' := by
  induction hrun with
  | nil w h => exact .refl w
  | cons _ hr _ ih => exact (call_grows hr).trans ih

end Client
