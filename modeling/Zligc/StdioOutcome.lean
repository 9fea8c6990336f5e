import Zligc.StdioOpening

/-!
# What a call does to the File records

A lookup puts 0, 1 and 2 back into the standard records. Where they hold these
handles anyway, a call leaves every record as it is, but for those of a stream
that it opens, reopens or closes.
-/
namespace Stdio

open Effect CellMemory Zig Zligc OsFile Function

/-- Initialised streams whose standard records hold what a lookup puts there. -/
structure Settled (w : World) : Prop where
  resolved : w.resolved ≠ 0
  own : ∀ fd n, standard fd = some n → w.records fd = some n

/-- The record of the stream lies in the used part of the static buffer. -/
def Allocated (w : World) (fd : Stream) : Prop :=
  ∀ addr, fd = .created addr → addr < w.fixed.base + w.fixed.end_index

/-- The call reopens or closes the stream. -/
def Call.Reopens (fd : Stream) : Call → Prop
  | .freopen _ _ stream | .freopen64 _ _ stream | .fclose stream => stream = some fd
  | _ => False

/-- A stream that was closed at the number `n` and opens the path has the handle `n` again: the open
gets this descriptor, or it does not succeed and the closed record has kept it. -/
def Regains (w : World) (path : List UInt8) (n : Int32) : Prop :=
  (Openable w.fixed (w.kernel.close n) path →
    w.kernel.policy.descriptor (w.kernel.close n).table = some n) ∧
  (¬ Openable w.fixed (w.kernel.close n) path → w.kernel.policy.closed n = some n)

/-- A standard stream that the call reopens or closes gets its handle back or keeps it. -/
def Call.Restores (w : World) : Call → Prop
  | .freopen (some filename) _ (some fd) | .freopen64 (some filename) _ (some fd) =>
    ∀ n path m, standard fd = some n → (Slice.toSliceConst filename).run w.mem = .ok path m →
      Regains w path n
  | .fclose (some fd) => ∀ n, standard fd = some n → w.kernel.policy.closed n = some n
  | _ => True

/-- Every call of the run, in the state it is made in, satisfies the condition. -/
def Meets (condition : World → Call → Prop) : World → List Call → Prop
  | _, [] => True
  | w, c :: calls =>
    condition w c ∧ ∀ r w', c.run.run w = .ok r w' → Meets condition w' calls

/-- In a settled state a lookup only leaves its events. -/
theorem Settled.looked_eq {w : World} (h : Settled w) :
    looked w = { w with events := w.events ++ [.lookup, .initStreams] } := by
  have hrec : initialised w.records = w.records := by
    funext fd
    unfold initialised
    split
    · rename_i n hn
      exact (h.own fd n hn).symm
    · rfl
  rw [looked, if_neg h.resolved, hrec]

theorem sameFiles_trans {k k' k'' : Kernel} (h : SameFiles k k') (h' : SameFiles k' k'') :
    SameFiles k k'' :=
  ⟨h'.1.trans h.1, fun fd => (h'.2 fd).trans (h.2 fd)⟩

/-- From `w` to `w'` no record has changed and no descriptor was opened or closed. -/
structure Undisturbed (w w' : World) : Prop where
  settled : Settled w'
  records : w'.records = w.records
  base : w'.fixed.base = w.fixed.base
  used : w.fixed.end_index ≤ w'.fixed.end_index
  files : SameFiles w.kernel w'.kernel

theorem undisturbed_refl {w : World} (h : Settled w) : Undisturbed w w :=
  ⟨h, rfl, rfl, Nat.le_refl _, sameFiles_refl _⟩

/-- A later state with the same flag and records. -/
theorem Undisturbed.next {w w₁ w' : World} (h : Undisturbed w w₁)
    (hres : w'.resolved = w₁.resolved) (hrec : w'.records = w₁.records)
    (hbase : w'.fixed.base = w₁.fixed.base) (hused : w₁.fixed.end_index ≤ w'.fixed.end_index)
    (hfiles : SameFiles w₁.kernel w'.kernel) : Undisturbed w w' :=
  ⟨⟨hres ▸ h.settled.resolved, hrec ▸ h.settled.own⟩, hrec.trans h.records, hbase.trans h.base,
    Nat.le_trans h.used hused, sameFiles_trans h.files hfiles⟩

/-- The calls that open and close nothing disturb nothing. -/
theorem undisturbed_discipline (w : World) :
    Discipline (Undisturbed w) (fun _ => Undisturbed w) (fun _ => Undisturbed w)
      (fun w' => w'.records = w.records) where
  lookup handle w₁ h := by
    have hlooked : Undisturbed w (looked w₁) := by
      rw [h.settled.looked_eq]
      exact h.next rfl rfl rfl (Nat.le_refl _) (sameFiles_refl _)
    rw [lookup_run]
    cases handle with
    | some fd => exact hlooked
    | none => exact hlooked.records
  use fd f hf w₁ h := by
    rw [apply_run]
    exact h.next rfl rfl rfl (Nat.le_refl _) (hf _ _)
  paths ps f failed hf w₁ h := by
    rw [onPaths_run]
    cases ha : w₁.fixed.alloc (w₁.kernel.policy.scratchFor ps) 1 with
    | none => exact h
    | some r =>
      obtain ⟨addr, fixed⟩ := r
      obtain ⟨hbase, hle, hend⟩ := Allocator.alloc_spec ha
      exact h.next rfl rfl hbase (by dsimp only; omega) (hf _)
  again _ _ h := h
  between _ _ h := h
  memory w₁ m h := h.next rfl rfl rfl (Nat.le_refl _) (sameFiles_refl _)
  pending_memory _ w₁ m h := h.next rfl rfl rfl (Nat.le_refl _) (sameFiles_refl _)
  used_memory _ w₁ m h := h.next rfl rfl rfl (Nat.le_refl _) (sameFiles_refl _)
  stopped _ h := h.records
  pending_stopped _ _ h := h.records

/-- The records that exist stay as they are, but for a stream the call reopens or closes. -/
def Keeps (c : Call) (w w' : World) : Prop :=
  ∀ fd, Allocated w fd → ¬ c.Reopens fd → w'.records fd = w.records fd

/-- `w'` is `w` with the File of `fd` closed. -/
structure Closing (fd : Stream) (w w' : World) : Prop where
  resolved : w'.resolved = w.resolved
  fixed : w'.fixed = w.fixed
  kernel : w'.kernel = w.kernel.close ((w.records fd).getD w.undefinedHandle)
  records : w'.records =
    update w.records fd (w.kernel.policy.closed ((w.records fd).getD w.undefinedHandle))

/-- What a call can do in a settled state: leave the records alone, open a new stream, reopen one
or close one. -/
inductive Outcome (w : World) (c : Call) : Option Stream → World → Prop where
  | quiet {w' : World} : (∀ fd, ¬ c.Reopens fd) → Undisturbed w w' → Outcome w c none w'
  | opened {addr : Nat} {path : List UInt8} {w₁ w' : World} {r : Option Stream} :
      (∀ fd, ¬ c.Reopens fd) → ¬ Allocated w (.created addr) →
      Steady w w₁ → w₁.kernel = w.kernel → Allocated w₁ (.created addr) →
      w₁.records = update w.records (.created addr) none →
      Opening path (.created addr) w₁ r w' → Outcome w c r w'
  | reopened {fd : Stream} {path : List UInt8} {w₁ w' : World} {r : Option Stream} :
      (∀ fd', c.Reopens fd' ↔ fd' = fd) → (∀ n, standard fd = some n → Regains w path n) →
      Closing fd w w₁ → Opening path fd w₁ r w' → Outcome w c r w'
  | closed {fd : Stream} {w' : World} : (∀ fd', c.Reopens fd' ↔ fd' = fd) →
      (∀ n, standard fd = some n → w.kernel.policy.closed n = some n) →
      Closing fd w w' → Outcome w c none w'

theorem Closing.others {w w' : World} {fd fd' : Stream} (h : Closing fd w w') (hne : fd' ≠ fd) :
    w'.records fd' = w.records fd' := by
  rw [h.records, update_of_ne hne]

theorem Settled.closing {w : World} (h : Settled w) (fd : Stream) (m : Mem) :
    Closing fd w { closed fd (looked w) with mem := m } := by
  rw [h.looked_eq]
  exact ⟨rfl, rfl, rfl, rfl⟩

/-- fopen in a settled state. -/
theorem fopen_outcome {w : World} (h : Settled w) (filename mode : Nat) {c : Call}
    (hc : ∀ fd, ¬ c.Reopens fd) :
    Triple (· = w) (fopen filename mode) (Outcome w c) (Keeps c w) := by
  rintro _ rfl
  rename_i w
  cases ha : w.fixed.alloc sizeOfFile sizeOfFile with
  | none =>
    rw [fopen_full filename mode ha]
    exact .quiet hc (undisturbed_refl h)
  | some r =>
    obtain ⟨addr, fixed⟩ := r
    obtain ⟨hbase, hle, hend⟩ := Allocator.alloc_spec ha
    have hfresh : ¬ Allocated w (.created addr) := fun hall => by
      have hlt := hall addr rfl
      omega
    rw [fopen_run filename mode ha]
    rcases openInto_cases filename (.created addr) { w with
        fixed := fixed
        records := update w.records (.created addr) none } with
      ⟨e, m, hrun⟩ | ⟨path, m, r, w', _, hrun, _, hopening⟩
    · rw [hrun]
      intro fd hall _
      refine update_of_ne ?_ _ _
      rintro rfl
      exact hfresh hall
    · rw [hrun]
      refine .opened hc hfresh ?_ ?_ ?_ ?_ hopening
      · exact ⟨rfl, rfl, hbase, by dsimp only; omega⟩
      · rfl
      · rintro _ ⟨⟩
        dsimp only
        have hsize : 0 < sizeOfFile := by decide
        omega
      · rfl

/-- freopen in a settled state. -/
theorem freopen_outcome {w : World} (h : Settled w) (filename : Option Nat) (mode : Nat)
    (stream : Option Stream) {c : Call} (hc : ∀ fd, c.Reopens fd ↔ stream = some fd)
    (hregains : ∀ name fd, filename = some name → stream = some fd → ∀ n path m,
      standard fd = some n → (Slice.toSliceConst name).run w.mem = .ok path m →
      Regains w path n) :
    Triple (· = w) (freopen filename mode stream) (Outcome w c) (Keeps c w) := by
  rintro _ rfl
  rename_i w
  cases filename with
  | none => exact fun fd _ _ => rfl
  | some filename =>
    cases stream with
    | none =>
      rw [freopen_eq, bind_error (lookup_none w), h.looked_eq]
      exact fun fd _ _ => rfl
    | some fd =>
      rw [freopen_run]
      rcases openInto_cases filename fd (Stdio.closed fd (looked w)) with
        ⟨e, m, hrun⟩ | ⟨path, m, r, w', hname, hrun, _, hopening⟩
      · rw [hrun]
        intro fd' _ hne
        exact (h.closing fd m).others fun he => hne ((hc _).mpr (he ▸ rfl))
      · rw [hrun]
        refine .reopened (fun fd' => ?_) (fun n hn => ?_) (h.closing fd m) hopening
        · rw [hc, Option.some.injEq, eq_comm]
        · have hmem : (Stdio.closed fd (looked w)).mem = w.mem := looked_mem w
          rw [hmem] at hname
          exact hregains filename fd rfl rfl n path m hn hname

/-- fclose in a settled state. -/
theorem fclose_outcome {w : World} (h : Settled w) (stream : Option Stream)
    (hkept : ∀ fd, stream = some fd → ∀ n, standard fd = some n →
      w.kernel.policy.closed n = some n) :
    Triple (· = w) (Call.fclose stream).run (Outcome w (.fclose stream))
      (Keeps (.fclose stream) w) := by
  rintro _ rfl
  rename_i w
  cases stream with
  | none =>
    have hrun : (fclose none).run w = .error _ (looked w) := bind_error (lookup_none w) _
    have hcall : (Call.fclose none).run.run w = .error _ (looked w) := map_error hrun _
    rw [hcall, h.looked_eq]
    exact fun fd _ _ => rfl
  | some fd =>
    have hcall : (Call.fclose (some fd)).run.run w = .ok none _ := map_ok (fclose_run fd w) _
    rw [hcall]
    refine .closed (fun fd' => ?_) (hkept fd rfl) (h.closing fd (Stdio.closed fd (looked w)).mem)
    rw [Call.Reopens, Option.some.injEq, eq_comm]

/-- Only fopen and freopen return streams. -/
theorem Call.returns_none {c : Call} (hc : ¬ c.Opens) {w w' : World} {r : Option Stream}
    (h : c.run.run w = .ok r w') : r = none := by
  cases c with
  | fopen | fopen64 | freopen | freopen64 | fclose => exact absurd trivial hc
  | _ =>
    obtain ⟨_, _, hnone⟩ := of_map_ok h
    exact hnone.symm

theorem call_outcome {w : World} (h : Settled w) {c : Call} (hc : c.Restores w) :
    Triple (· = w) c.run (Outcome w c) (Keeps c w) := by
  by_cases hopens : c.Opens
  · cases c with
    | fopen filename mode | fopen64 filename mode =>
      exact fopen_outcome h filename mode fun _ hre => hre
    | freopen filename mode stream | freopen64 filename mode stream =>
      refine freopen_outcome h filename mode stream (fun _ => Iff.rfl) ?_
      rintro name fd rfl rfl
      exact hc
    | fclose stream =>
      refine fclose_outcome h stream ?_
      rintro fd rfl
      exact hc
    | _ => exact absurd hopens id
  · rintro _ rfl
    rename_i w
    have hquiet : ∀ fd, ¬ c.Reopens fd := by
      intro fd hre
      cases c with
      | freopen | freopen64 | fclose => exact hopens trivial
      | _ => exact hre
    have hrun := (undisturbed_discipline w).call c hopens w (undisturbed_refl h)
    split at hrun
    · rename_i r w' heq
      obtain rfl := Call.returns_none hopens heq
      exact .quiet hquiet hrun
    · rename_i e w' heq
      exact fun fd _ _ => congrFun hrun fd

section Outcomes

variable {w w₁ w' : World} {c : Call} {r : Option Stream} {fd : Stream} {path : List UInt8}

theorem Opening.steady (h : Opening path fd w r w') : Steady w w' := by
  cases h with
  | failed _ h => exact h
  | opened _ h => exact h

/-- Opening a path for a stream changes no other record. -/
theorem Opening.others (h : Opening path fd w r w') {fd' : Stream} (hne : fd' ≠ fd) :
    w'.records fd' = w.records fd' := by
  cases h with
  | failed _ _ hrec => rw [hrec]
  | opened _ _ _ hrec => rw [hrec, update_of_ne hne]

theorem Steady.allocated (h : Steady w w') (hall : Allocated w fd) : Allocated w' fd := by
  intro addr hfd
  have hlt := hall addr hfd
  have hle := h.used
  rw [h.base]
  omega

theorem Closing.allocated (h : Closing fd w w') {fd' : Stream} (hall : Allocated w fd') :
    Allocated w' fd' := by
  unfold Allocated
  rw [h.fixed]
  exact hall

theorem standard_allocated {n : Int32} (hn : standard fd = some n) : Allocated w fd := by
  rintro addr rfl
  cases hn

/-- A standard stream that was reopened has its handle again. -/
theorem Opening.regained (h : Opening path fd w₁ r w') (hc : Closing fd w w₁) {n : Int32}
    (hn : w.records fd = some n) (hre : Regains w path n) : w'.records fd = some n := by
  have hkernel := hc.kernel
  have hrec := hc.records
  rw [hn, Option.getD_some] at hkernel hrec
  cases h with
  | failed hno _ hsame =>
    rw [hkernel, hc.fixed] at hno
    rw [hsame, hrec, update_self]
    exact hre.2 hno
  | opened hyes _ hfile hsame =>
    rw [hkernel, hc.fixed] at hyes
    rw [hkernel] at hfile
    rw [hsame, update_self, ← hfile]
    exact hre.1 hyes

theorem Outcome.keeps (h : Outcome w c r w') : Keeps c w w' := by
  intro fd hall hne
  cases h with
  | quiet _ h => rw [h.records]
  | opened _ hfresh _ _ _ hrec hopening =>
    have hother : fd ≠ .created _ := fun he => hfresh (he ▸ hall)
    rw [hopening.others hother, hrec, update_of_ne hother]
  | reopened hre _ hclosing hopening =>
    have hother : fd ≠ _ := fun he => hne ((hre fd).mpr he)
    rw [hopening.others hother, hclosing.others hother]
  | closed hre _ hclosing =>
    exact hclosing.others fun he => hne ((hre fd).mpr he)

theorem Outcome.allocated (h : Outcome w c r w') (hall : Allocated w fd) : Allocated w' fd := by
  cases h with
  | quiet _ h =>
    intro addr hfd
    have hlt := hall addr hfd
    have hle := h.used
    rw [h.base]
    omega
  | opened _ _ hsteady _ _ _ hopening => exact hopening.steady.allocated (hsteady.allocated hall)
  | reopened _ _ hclosing hopening => exact hopening.steady.allocated (hclosing.allocated hall)
  | closed _ _ hclosing => exact hclosing.allocated hall

theorem Outcome.resolved (h : Outcome w c r w') (hs : Settled w) : w'.resolved ≠ 0 := by
  cases h with
  | quiet _ h => exact h.settled.resolved
  | opened _ _ hsteady _ _ _ hopening =>
    rw [hopening.steady.resolved, hsteady.resolved]
    exact hs.resolved
  | reopened _ _ hclosing hopening =>
    rw [hopening.steady.resolved, hclosing.resolved]
    exact hs.resolved
  | closed _ _ hclosing =>
    rw [hclosing.resolved]
    exact hs.resolved

/-- A settled state stays settled. -/
theorem Outcome.settled (h : Outcome w c r w') (hs : Settled w) : Settled w' := by
  refine ⟨h.resolved hs, fun fd n hn => ?_⟩
  by_cases hre : c.Reopens fd
  · cases h with
    | quiet hno _ | opened hno => exact absurd hre (hno fd)
    | reopened hall hregains hclosing hopening =>
      obtain rfl := (hall fd).mp hre
      exact hopening.regained hclosing (hs.own fd n hn) (hregains n hn)
    | closed hall hkept hclosing =>
      obtain rfl := (hall fd).mp hre
      rw [hclosing.records, update_self, hs.own fd n hn]
      exact hkept n hn
  · rw [h.keeps fd (standard_allocated hn) hre]
    exact hs.own fd n hn

end Outcomes

/-- The records of the run stay as they are, but for streams it reopens or closes. -/
theorem runCalls_keeps {w : World} (hs : Settled w) {calls : List Call}
    (hm : Meets Call.Restores w calls) {fd : Stream} (hall : Allocated w fd)
    (hne : ∀ c, c ∈ calls → ¬ c.Reopens fd) :
    (after ((runCalls calls).run w)).records fd = w.records fd := by
  induction calls generalizing w with
  | nil => rfl
  | cons c calls ih =>
    rw [List.forall_mem_cons] at hne
    have hcall := call_outcome hs hm.1 w rfl
    cases hrun : c.run.run w with
    | ok r w₁ =>
      rw [hrun] at hcall
      rw [runCalls, bind_ok hrun,
        ih (hcall.settled hs) (hm.2 r w₁ hrun) (hcall.allocated hall) hne.2]
      exact hcall.keeps fd hall hne.1
    | error e w₁ =>
      rw [hrun] at hcall
      rw [runCalls, bind_error hrun]
      exact hcall fd hall hne.1

/-- The state after the first part of a run. -/
theorem runCalls_settled {w w' : World} (hs : Settled w) {pre post : List Call}
    (hm : Meets Call.Restores w (pre ++ post)) (hrun : (runCalls pre).run w = .ok () w') :
    Settled w' ∧ Meets Call.Restores w' post := by
  induction pre generalizing w with
  | nil =>
    obtain rfl : w = w' := (EStateM.Result.ok.inj hrun).2
    exact ⟨hs, hm⟩
  | cons c pre ih =>
    cases hcall : c.run.run w with
    | ok r w₁ =>
      have hout := call_outcome hs hm.1 w rfl
      rw [hcall] at hout
      rw [runCalls, bind_ok hcall] at hrun
      exact ih (hout.settled hs) (hm.2 r w₁ hcall) hrun
    | error e w₁ =>
      rw [runCalls, bind_error hcall] at hrun
      cases hrun

end Stdio
