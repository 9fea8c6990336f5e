import Zligc.StdioCalls

/-!
# When the standard streams are initialised

`@cmpxchgStrong` returns null when it has swapped, so the first lookup of a run
skips initStreams and every later one runs it. A run of `n` lookups initialises
the streams `n - 1` times, each time after a record was used.
-/
namespace Stdio

open Effect Zig Zligc OsFile

/-- The streams were initialised once, before any record was used, and no standard record was used
undefined. -/
structure InitialisedOnce (events : List Event) : Prop where
  once : events.count .initStreams = 1
  before : ∀ pre fd b post, events = pre ++ .dereference fd b :: post → .initStreams ∈ pre
  defined : ∀ fd, (standard fd).isSome → .dereference fd false ∉ events

/-- No lookup has happened and the standard records are undefined. -/
structure Untouched (w : World) : Prop where
  resolved : w.resolved = 0
  events : w.events = []
  records : ∀ fd, (standard fd).isSome → w.records fd = none

/-- The first lookup has happened and no record was used yet. -/
structure LookedOnce (w : World) : Prop where
  resolved : w.resolved = 1
  events : w.events = [.lookup]
  records : ∀ fd, (standard fd).isSome → w.records fd = none

/-- A record was used after the first lookup, without an initStreams between them, and each later
lookup has run initStreams. -/
structure Late (w : World) : Prop where
  resolved : w.resolved = 1
  events : ∃ fd b later, w.events = .lookup :: .dereference fd b :: later ∧
    ((standard fd).isSome → b = false)
  lookups : w.events.count .initStreams + 1 = w.events.count .lookup

/-- What holds when a run has stopped. -/
def Stopped (w : World) : Prop := Untouched w ∨ LookedOnce w ∨ Late w

theorem started_untouched {w : World} (h : Started w) : Untouched w :=
  ⟨h.resolved, h.events, fun fd _ => h.records fd⟩

theorem Untouched.looked {w : World} (h : Untouched w) : LookedOnce (looked w) := by
  unfold Stdio.looked
  rw [if_pos h.resolved]
  exact ⟨rfl, by simp [h.events], h.records⟩

theorem Late.looked {w : World} (h : Late w) : Late (looked w) := by
  have hne : w.resolved ≠ 0 := by
    rw [h.resolved]
    decide
  unfold Stdio.looked
  rw [if_neg hne]
  obtain ⟨fd, b, later, hev, hb⟩ := h.events
  refine ⟨h.resolved, ⟨fd, b, later ++ [.lookup, .initStreams], by simp [hev], hb⟩, ?_⟩
  have hcount := h.lookups
  simp [List.count_append]
  omega

theorem LookedOnce.used {w w' : World} {fd : Stream} (h : LookedOnce w)
    (hr : w'.resolved = w.resolved)
    (he : w'.events = w.events ++ [.dereference fd (w.records fd).isSome]) : Late w' := by
  refine ⟨hr.trans h.resolved, ⟨fd, _, [], by rw [he, h.events]; rfl, fun hs => ?_⟩, ?_⟩
  · rw [h.records fd hs]
    rfl
  · rw [he, h.events]
    rfl

theorem Late.used {w w' : World} {fd : Stream} {b : Bool} (h : Late w)
    (hr : w'.resolved = w.resolved) (he : w'.events = w.events ++ [.dereference fd b]) :
    Late w' := by
  obtain ⟨fd', b', later, hev, hb⟩ := h.events
  refine ⟨hr.trans h.resolved, ⟨fd', b', later ++ [.dereference fd b], ?_, hb⟩, ?_⟩
  · rw [he, hev]
    rfl
  · have hcount := h.lookups
    rw [he]
    simpa [List.count_append, List.count_cons] using hcount

/-- A state that differs neither in what was looked up nor in the standard records. -/
theorem Untouched.same {w w' : World} (h : Untouched w) (hr : w'.resolved = w.resolved)
    (he : w'.events = w.events)
    (hs : ∀ fd, (standard fd).isSome → w'.records fd = w.records fd) : Untouched w' :=
  ⟨hr.trans h.resolved, he.trans h.events, fun fd hfd => (hs fd hfd).trans (h.records fd hfd)⟩

theorem Late.same {w w' : World} (h : Late w) (hr : w'.resolved = w.resolved)
    (he : w'.events = w.events) : Late w' :=
  ⟨hr.trans h.resolved, he ▸ h.events, he ▸ h.lookups⟩

/-- Untouched or late, a run stays so while it opens files and allocates. -/
theorem init_paths {β : Type} (ps : List (List UInt8)) (f : Kernel → Kernel × β) (failed : β) :
    Triple (fun w => Untouched w ∨ Late w) (File.onPaths ps f failed)
      (fun _ w => Untouched w ∨ Late w) Stopped := by
  intro w hw
  rw [onPaths_run]
  cases w.fixed.alloc (w.kernel.policy.scratchFor ps) 1 with
  | none => exact hw
  | some r =>
    cases hw with
    | inl h => exact Or.inl (h.same rfl rfl fun _ _ => rfl)
    | inr h => exact Or.inr (h.same rfl rfl)

theorem late_paths {β : Type} (ps : List (List UInt8)) (f : Kernel → Kernel × β) (failed : β) :
    Triple Late (File.onPaths ps f failed) (fun _ => Late) Stopped := by
  intro w hw
  rw [onPaths_run]
  cases w.fixed.alloc (w.kernel.policy.scratchFor ps) 1 with
  | none => exact hw
  | some r => exact hw.same rfl rfl

theorem init_discipline :
    Discipline (fun w => Untouched w ∨ Late w) (fun _ w => LookedOnce w ∨ Late w) (fun _ => Late)
      Stopped where
  lookup handle w hw := by
    have hlooked : LookedOnce (looked w) ∨ Late (looked w) := by
      cases hw with
      | inl h => exact Or.inl h.looked
      | inr h => exact Or.inr h.looked
    rw [lookup_run]
    cases handle with
    | some fd => exact hlooked
    | none => exact Or.inr hlooked
  use fd f _ w hw := by
    rw [apply_run]
    cases hw with
    | inl h => exact h.used rfl rfl
    | inr h => exact h.used rfl rfl
  paths ps f failed _ := init_paths ps f failed
  again _ _ h := Or.inr h
  between _ _ h := Or.inr h
  memory w m hw := by
    cases hw with
    | inl h => exact Or.inl (h.same rfl rfl fun _ _ => rfl)
    | inr h => exact Or.inr (h.same rfl rfl)
  pending_memory _ w m hw := by
    cases hw with
    | inl h => exact Or.inl ⟨h.resolved, h.events, h.records⟩
    | inr h => exact Or.inr (h.same rfl rfl)
  used_memory _ w m h := h.same rfl rfl
  stopped w hw := by
    cases hw with
    | inl h => exact Or.inl h
    | inr h => exact Or.inr (Or.inr h)
  pending_stopped _ w hw := Or.inr hw

theorem late_stopped (w : World) (h : Late w) : Stopped w := Or.inr (Or.inr h)

theorem late_assign (fd : Stream) (file : Option Int32) :
    Triple Late (File.assign fd file) (fun _ => Late) Stopped :=
  fun _ hw => hw.same rfl rfl

/-- A record that fopen allocates is none of the standard ones. -/
theorem init_assign (addr : Nat) (file : Option Int32) :
    Triple (fun w => Untouched w ∨ Late w) (File.assign (.created addr) file)
      (fun _ w => Untouched w ∨ Late w) Stopped := by
  intro w hw
  cases hw with
  | inl h =>
    refine Or.inl (h.same rfl rfl fun fd hfd => Function.update_of_ne ?_ _ _)
    rintro rfl
    simp [standard] at hfd
  | inr h => exact Or.inr (h.same rfl rfl)

theorem init_reserve (n alignment : Nat) :
    Triple (fun w => Untouched w ∨ Late w) (reserve n alignment)
      (fun _ w => Untouched w ∨ Late w) Stopped := by
  intro w hw
  rw [reserve, step_run]
  cases w.fixed.alloc n alignment with
  | none => exact hw
  | some r =>
    cases hw with
    | inl h => exact Or.inl (h.same rfl rfl fun _ _ => rfl)
    | inr h => exact Or.inr (h.same rfl rfl)

theorem init_fopen (filename mode : Nat) :
    Triple (fun w => Untouched w ∨ Late w) (fopen filename mode)
      (fun _ w => Untouched w ∨ Late w) Stopped := by
  apply triple_bind (init_reserve _ _)
  intro addr
  cases addr with
  | none => exact triple_pure fun _ hw => hw
  | some addr =>
    apply triple_bind (init_assign addr none)
    intro _
    apply triple_bind (triple_onMem _ init_discipline.memory init_discipline.stopped)
    intro path
    apply triple_bind (init_paths _ _ _)
    intro file
    cases file with
    | none => exact triple_pure fun _ hw => hw
    | some file => exact triple_bind (init_assign addr _) fun _ => triple_pure fun _ hw => hw

/-- Closing uses the record, so a run that has closed one is late. -/
theorem init_close (fd : Stream) :
    Triple (fun w => LookedOnce w ∨ Late w) (File.close fd) (fun _ => Late) Stopped := by
  refine triple_bind (Q := fun _ => Late) (fun w hw => ?_) fun file => late_assign fd file
  rw [apply_run]
  cases hw with
  | inl h => exact h.used rfl rfl
  | inr h => exact h.used rfl rfl

theorem init_freopen (filename : Option Nat) (mode : Nat) (stream : Option Stream) :
    Triple (fun w => Untouched w ∨ Late w) (freopen filename mode stream)
      (fun _ w => Untouched w ∨ Late w) Stopped := by
  cases filename with
  | none => exact triple_throw init_discipline.stopped
  | some filename =>
    apply triple_bind (init_discipline.lookup stream)
    intro fd
    apply triple_bind (init_close fd)
    intro _
    apply triple_bind (triple_onMem _ (init_discipline.used_memory fd) late_stopped)
    intro path
    apply triple_bind (late_paths _ _ _)
    intro file
    cases file with
    | none => exact triple_pure fun _ hw => Or.inr hw
    | some file => exact triple_bind (late_assign fd _) fun _ => triple_pure fun _ hw => Or.inr hw

theorem init_fclose (stream : Option Stream) :
    Triple (fun w => Untouched w ∨ Late w) (fclose stream)
      (fun _ w => Untouched w ∨ Late w) Stopped := by
  apply triple_bind (init_discipline.lookup stream)
  intro fd
  exact triple_bind (init_close fd) fun _ => triple_pure fun _ hw => Or.inr hw

theorem init_call (c : Call) :
    Triple (fun w => Untouched w ∨ Late w) c.run (fun _ w => Untouched w ∨ Late w) Stopped := by
  by_cases hc : c.Opens
  · cases c with
    | fopen filename mode | fopen64 filename mode => exact init_fopen filename mode
    | freopen filename mode stream | freopen64 filename mode stream =>
      exact init_freopen filename mode stream
    | fclose stream => exact triple_map _ (init_fclose stream)
    | _ => exact absurd hc id
  · exact init_discipline.call c hc

theorem init_run {w : World} (h : Started w) (calls : List Call) :
    Stopped (after ((runCalls calls).run w)) := by
  have hrun := triple_runCalls calls fun c _ => init_call c
  refine triple_after (P := fun w => Untouched w ∨ Late w) ?_ (Or.inl (started_untouched h))
  exact triple_conseq hrun (fun _ hw => hw) fun _ => init_discipline.stopped

theorem Stopped.not_once {w : World} (h : Stopped w) : ¬ InitialisedOnce w.events := by
  intro honce
  rcases h with h | h | h
  · have hcount := honce.once
    simp [h.events] at hcount
  · have hcount := honce.once
    simp [h.events] at hcount
  · obtain ⟨fd, b, later, hev, _⟩ := h.events
    have hmem := honce.before [.lookup] fd b later hev
    simp at hmem

/-- No run from a process start initialises the streams once and before use: a run of lookups
initialises them once less than it looks handles up. -/
theorem initialised_never {w : World} (h : Started w) (calls : List Call) :
    ¬ InitialisedOnce (after ((runCalls calls).run w)).events ∧
      (after ((runCalls calls).run w)).events.count .initStreams =
        (after ((runCalls calls).run w)).events.count .lookup - 1 := by
  have hstop := init_run h calls
  refine ⟨hstop.not_once, ?_⟩
  rcases hstop with h | h | h
  · simp [h.events]
  · simp [h.events]
  · have hcount := h.lookups
    omega

theorem initialised_never_example :
    ¬ InitialisedOnce (after ((runCalls [.putchar 65]).run
        (startWorld firstMem (Kernel.started .lowest [])))).events ∧
      (after ((runCalls [.putchar 65]).run
        (startWorld firstMem (Kernel.started .lowest [])))).events.count .initStreams =
      (after ((runCalls [.putchar 65]).run
        (startWorld firstMem (Kernel.started .lowest [])))).events.count .lookup - 1 :=
  initialised_never ⟨rfl, fun _ => rfl, rfl⟩ [.putchar 65]

/-- The first putchar of a process uses an undefined stdout; the second one comes right after the
only initStreams. -/
theorem putchar_undefined :
    (after ((runCalls [.putchar 65, .putchar 66]).run
        (startWorld firstMem (Kernel.started .lowest [])))).events =
      [.lookup, .dereference .stdout_file false, .lookup, .initStreams,
        .dereference .stdout_file true] ∧
    ¬ InitialisedOnce [.lookup, .dereference .stdout_file false, .lookup, .initStreams,
      .dereference .stdout_file true] := by
  refine ⟨by decide, fun h => ?_⟩
  exact h.defined .stdout_file rfl (by simp)

end Stdio
