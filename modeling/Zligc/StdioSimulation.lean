import Zligc.StdioStore

/-!
# Runs of the library are runs of the store

Each call of a run is a group of actions on the files and streams that it names, and the run is the
groups one after the other. A program that uses live streams only cannot tell the library from the
store.
-/
namespace Stdio

open Effect CellMemory Zig Zligc OsFile Function FileStore

/-- The call uses the record of the stream. -/
def Call.Uses (fd : Stream) : Call → Prop
  | .freopen _ _ stream | .freopen64 _ _ stream | .fclose stream | .fseek stream _ _
  | .ftell stream | .rewind stream | .fread _ _ _ stream | .fwrite _ _ _ stream | .fgetc stream
  | .getc stream | ._IO_getc stream | .fputc _ stream | .putc _ stream | .fputs _ stream
  | .fgets _ _ stream | .test_fprintf stream _ => stream = some fd
  | .getchar => fd = .stdin_file
  | .putchar _ | .puts _ => fd = .stdout_file
  | _ => False

/-- The actions that a call may do, with the names and bytes that the memory holds. -/
def Call.Allows (m : Mem) (a : Action (List UInt8) Stream UInt8) : Call → Prop
  | .fopen filename _ | .fopen64 filename _ =>
    ∃ fd path, Named m filename path ∧ a = .opens fd path
  | .freopen (some filename) _ (some fd) | .freopen64 (some filename) _ (some fd) =>
    a = .closes fd ∨ ∃ path, Named m filename path ∧ a = .opens fd path
  | .fclose (some fd) => a = .closes fd
  | .rename (some old_filename) (some new_filename) =>
    ∃ old new, Named m old_filename old ∧ Named m new_filename new ∧ a = .renames old new
  | .remove (some pathname) => ∃ path, Named m pathname path ∧ a = .removes path
  | .fseek stream _ _ | .rewind stream => ∃ fd p, stream = some fd ∧ a = .seeks fd p
  | .fread _ _ _ stream | .fgetc stream | .getc stream | ._IO_getc stream | .fgets _ _ stream =>
    ∃ fd got, stream = some fd ∧ a = .reads fd got
  | .getchar => ∃ got, a = .reads .stdin_file got
  | .fwrite buffer size count stream => ∃ fd s put, stream = some fd ∧
    (Slice.slice buffer (count * size)).run m = .ok s m ∧ put <+: s ∧ a = .writes fd put
  | .fputc ch stream | .putc ch stream => ∃ fd b put, stream = some fd ∧ widen b = ch ∧
    put <+: [b] ∧ a = .writes fd put
  | .putchar ch => ∃ b put, widen b = ch ∧ put <+: [b] ∧ a = .writes .stdout_file put
  | .fputs str stream => ∃ fd p s put, stream = some fd ∧ str = some p ∧ Named m p s ∧
    (put <+: s ∨ put <+: [10]) ∧ a = .writes fd put
  | .puts str => ∃ s put, Named m str s ∧ (put <+: s ∨ put <+: [10]) ∧ a = .writes .stdout_file put
  | .test_fprintf stream _ => ∃ fd put, stream = some fd ∧ a = .writes fd put
  | _ => False

section Opens

variable {live : Stream → Prop} {w w' : World} {fd : Stream} {r : Option Stream}

theorem view_congr {live' : Stream → Prop} (h : ∀ fd, live fd ↔ live' fd) :
    view live w = view live' w := by
  rw [funext fun fd => propext (h fd)]

/-- Closing a live stream. -/
theorem close_acts (ht : Tidy live w) (hfd : live fd) :
    FileStore.Acts writeAt (view live w) (.closes fd)
      (view (fun s => live s ∧ s ≠ fd) (closed fd (looked w))) := by
  obtain ⟨h, hrec, -⟩ := ht.held fd hfd
  have hstreams : (view (fun s => live s ∧ s ≠ fd) (closed fd (looked w))).streams =
      update (view live w).streams fd none := by
    funext s
    by_cases he : s = fd
    · subst he
      simp [view]
    · rw [update_of_ne he]
      by_cases hs : live s
      · obtain ⟨h', hrec', -⟩ := ht.held s hs
        have hne : h' ≠ h := by
          rintro rfl
          exact he (ht.apart s fd hs hfd (hrec'.trans hrec.symm))
        simp [view, closed, ht.settled.looked_eq, hs, he, hrec, hrec', Kernel.close,
          Kernel.describe, hne]
      · simp [view, hs]
  have hview : view (fun s => live s ∧ s ≠ fd) (closed fd (looked w)) =
      { view live w with streams := update (view live w).streams fd none } := by
    rw [← hstreams]
    simp [view, closed, ht.settled.looked_eq, Kernel.close, Kernel.describe]
  rw [hview]
  exact .closes _ fd

/-- The live streams hold open descriptors. -/
def Holding (live : Stream → Prop) (w : World) : Prop :=
  ∀ fd, live fd → ∃ h, w.records fd = some h ∧ (w.kernel.table h).isSome

/-- The system opens a path for a stream that was not live. -/
theorem truncated_acts (hheld : Holding live w) (hfd : ¬ live fd) {path : List UInt8} {file : Int32}
    (hfree : w.kernel.table file = none) (hrec : w'.records = update w.records fd (some file))
    (hkernel : w'.kernel = (w.kernel.truncated path file).tick) :
    FileStore.Acts writeAt (view live w) (.opens fd path)
      (view (fun s => some fd = some s ∨ live s) w') := by
  have htable : w'.kernel.table = update w.kernel.table file
      (some ⟨w.kernel.target path, 0, false, true⟩) := by
    rw [hkernel]
    rfl
  have hstreams : (view (fun s => some fd = some s ∨ live s) w').streams =
      update (view live w).streams fd (some ⟨w.kernel.target path, 0, false, true⟩) := by
    funext s
    by_cases he : s = fd
    · subst he
      simp [view, hrec, htable, handleOf]
    · rw [update_of_ne he]
      by_cases hs : live s
      · obtain ⟨h, hold, hopen⟩ := hheld s hs
        have hne : h ≠ file := by
          rintro rfl
          rw [hfree] at hopen
          cases hopen
        simp [view, hs, hrec, he, hold, htable, hne]
      · simp [view, hs, Ne.symm he]
  have hview : view (fun s => some fd = some s ∨ live s) w' =
      { names := update (view live w).names path (some ((view live w).target path))
        contents := update (view live w).contents ((view live w).target path) []
        streams := update (view live w).streams fd
          (some ⟨(view live w).target path, 0, false, true⟩)
        unused := max (view live w).unused ((view live w).target path + 1) } := by
    change _ = (⟨_, _, update (view live w).streams fd
      (some ⟨w.kernel.target path, 0, false, true⟩), _⟩ : Store (List UInt8) Stream UInt8)
    rw [← hstreams]
    simp only [view, hkernel]
    rfl
  rw [hview]
  exact .opens _ fd path

/-- The common end of fopen and freopen opens the path for the stream, or the store stays. -/
theorem openInto_acts (hheld : Holding live w) (hfd : ¬ live fd) {filename : Nat}
    (hrun : (openInto filename fd).run w = .ok r w') :
    r = none ∧ view live w' = view live w ∨
      r = some fd ∧ ∃ path, Named w.mem filename path ∧
        FileStore.Acts writeAt (view live w) (.opens fd path)
          (view (fun s => some fd = some s ∨ live s) w') := by
  have hmoves := toSliceConst_moves filename w.mem
  cases hname : (Slice.toSliceConst filename).run w.mem with
  | error e m =>
    have hread : (onMem (Slice.toSliceConst filename)).run w = .error e { w with mem := m } := by
      rw [run_onMem, hname]
    rw [openInto, bind_error hread] at hrun
    cases hrun
  | ok path m =>
    rw [hname, after_ok] at hmoves
    subst hmoves
    have hopen := onPaths_run [path] (·.openWrite path) none w
    rw [openInto, bind_ok (onMem_same hname), File.openWrite] at hrun
    cases ha : w.fixed.alloc (w.kernel.policy.scratchFor [path]) 1 with
    | none =>
      rw [ha] at hopen
      rw [bind_ok hopen] at hrun
      obtain ⟨rfl, rfl⟩ := EStateM.Result.ok.inj hrun
      exact Or.inl ⟨rfl, rfl⟩
    | some alloc =>
      rw [ha] at hopen
      by_cases hno : w.kernel.policy.fails w.kernel.clock = true ∨
          w.kernel.policy.descriptor w.kernel.table = none
      · rw [openWrite_fails w.kernel path hno] at hopen
        rw [bind_ok hopen] at hrun
        obtain ⟨rfl, rfl⟩ := EStateM.Result.ok.inj hrun
        exact Or.inl ⟨rfl, rfl⟩
      · simp only [not_or, Bool.not_eq_true] at hno
        obtain ⟨file, hfile⟩ := Option.ne_none_iff_exists'.mp hno.2
        rw [openWrite_opens path hno.1 hfile] at hopen
        rw [bind_ok hopen] at hrun
        obtain ⟨rfl, rfl⟩ := EStateM.Result.ok.inj hrun
        exact Or.inr ⟨rfl, path, hname, truncated_acts hheld hfd
          (w.kernel.policy.fresh _ _ hfile) rfl rfl⟩

/-- fopen opens a path for a stream that did not exist, or the store stays. -/
theorem fopen_acts (ht : Tidy live w) {filename mode : Nat}
    (hrun : (fopen filename mode).run w = .ok r w') :
    r = none ∧ view live w' = view live w ∨
      ∃ fd path, r = some fd ∧ Named w.mem filename path ∧
        FileStore.Acts writeAt (view live w) (.opens fd path)
          (view (fun s => some fd = some s ∨ live s) w') := by
  cases ha : w.fixed.alloc sizeOfFile sizeOfFile with
  | none =>
    rw [fopen_full filename mode ha] at hrun
    obtain ⟨rfl, rfl⟩ := EStateM.Result.ok.inj hrun
    exact Or.inl ⟨rfl, rfl⟩
  | some alloc =>
    obtain ⟨addr, fixed⟩ := alloc
    obtain ⟨-, hle, -⟩ := Allocator.alloc_spec ha
    rw [fopen_run filename mode ha] at hrun
    have hfd : ¬ live (.created addr) := fun hlive => by
      have hlt := ht.allocated _ hlive addr rfl
      omega
    have hother : ∀ s, live s → s ≠ .created addr := by
      rintro s hs rfl
      exact hfd hs
    have hview : view live { w with
        fixed := fixed
        records := update w.records (.created addr) none } = view live w := by
      simp only [view]
      congr 1
      funext s
      split
      · rename_i hs
        rw [update_of_ne (hother s hs)]
      · rfl
    have hheld : Holding live { w with
        fixed := fixed
        records := update w.records (.created addr) none } := by
      intro s hs
      obtain ⟨h, hrec, hopen⟩ := ht.held s hs
      exact ⟨h, (update_of_ne (hother s hs) _ _).trans hrec, hopen⟩
    have hopens := openInto_acts hheld hfd hrun
    rw [hview] at hopens
    rcases hopens with hnone | ⟨hr, path, hname, hacts⟩
    · exact Or.inl hnone
    · exact Or.inr ⟨_, path, hr, hname, hacts⟩

/-- freopen closes the stream, and it opens the path for it or not. -/
theorem freopen_acts (ht : Tidy live w) (hfd : live fd) {filename mode : Nat}
    (hrun : (freopen (some filename) mode (some fd)).run w = .ok r w') :
    ∃ actions, (∀ a ∈ actions, a = .closes fd ∨
        ∃ path, Named w.mem filename path ∧ a = .opens fd path) ∧
      Runs writeAt (view live w) actions (view (fun s => r = some s ∨ live s ∧ s ≠ fd) w') := by
  rw [freopen_run] at hrun
  have hclose := close_acts ht hfd
  have hheld : Holding (fun s => live s ∧ s ≠ fd) (closed fd (looked w)) := by
    rintro s ⟨hs, hne⟩
    obtain ⟨h, hrec, hopen⟩ := ht.held s hs
    have hclosing := ht.settled.closing fd w.mem
    refine ⟨h, (hclosing.others hne).trans hrec, ?_⟩
    have htable := ht.closing hclosing hfd hs hne hrec
    exact (congrArg Option.isSome htable).trans hopen
  rcases openInto_acts hheld (fun h => h.2 rfl) hrun with
    ⟨rfl, hview⟩ | ⟨rfl, path, hname, hopens⟩
  · refine ⟨[.closes fd], by simp, ?_⟩
    have hleft : view (fun s => none = some s ∨ live s ∧ s ≠ fd) w' =
        view (fun s => live s ∧ s ≠ fd) w' := view_congr (by simp)
    rw [hleft, hview]
    exact hclose.run
  · rw [show (closed fd (looked w)).mem = w.mem from looked_mem w] at hname
    exact ⟨[.closes fd, .opens fd path], by simp [hname], .cons hclose hopens.run⟩

end Opens

section Paths

variable {live : Stream → Prop} {w w' : World}

/-- remove takes scratch memory and deletes the file. -/
theorem remove_run {p : Nat} {path : List UInt8} (hp : Named w.mem p path) :
    (remove (some p)).run w =
      match w.fixed.alloc (w.kernel.policy.scratchFor [path]) 1 with
      | none => .ok (-1) w
      | some (_, fixed) => .ok (if (w.kernel.deleteFile path).2 then 0 else -1)
          { w with fixed, kernel := (w.kernel.deleteFile path).1 } := by
  have hdelete := onPaths_run [path] (·.deleteFile path) false w
  rw [remove, bind_ok (unwrap_run p w), bind_ok (onMem_same hp), deleteFile]
  cases ha : w.fixed.alloc (w.kernel.policy.scratchFor [path]) 1 with
  | none =>
    rw [ha] at hdelete
    rw [bind_ok hdelete]
    rfl
  | some alloc =>
    rw [ha] at hdelete
    rw [bind_ok hdelete]
    cases (w.kernel.deleteFile path).2 <;> rfl

theorem rename_run {p q : Nat} {old new : List UInt8} (hp : Named w.mem p old)
    (hq : Named w.mem q new) :
    (rename (some p) (some q)).run w =
      match w.fixed.alloc (w.kernel.policy.scratchFor [old, new]) 1 with
      | none => .ok (-1) w
      | some (_, fixed) => .ok (if (w.kernel.rename old new).2 then 0 else -1)
          { w with fixed, kernel := (w.kernel.rename old new).1 } := by
  have hrename := onPaths_run [old, new] (·.rename old new) false w
  rw [rename, bind_ok (unwrap_run p w), bind_ok (onMem_same hp), bind_ok (unwrap_run q w),
    bind_ok (onMem_same hq), osRename]
  cases ha : w.fixed.alloc (w.kernel.policy.scratchFor [old, new]) 1 with
  | none =>
    rw [ha] at hrename
    rw [bind_ok hrename]
    rfl
  | some alloc =>
    rw [ha] at hrename
    rw [bind_ok hrename]
    cases (w.kernel.rename old new).2 <;> rfl

/-- A name that a call has gone on from was read. -/
theorem named_of_ok {α : Type} {p : Nat} {f : List UInt8 → Run World α} {a : α}
    (h : (onMem (Slice.toSliceConst p) >>= f).run w = .ok a w') :
    ∃ s, Named w.mem p s ∧ (f s).run w = .ok a w' := by
  have hmoves := toSliceConst_moves p w.mem
  cases hname : (Slice.toSliceConst p).run w.mem with
  | error e m =>
    have hread : (onMem (Slice.toSliceConst p)).run w = .error e { w with mem := m } := by
      rw [run_onMem, hname]
    rw [bind_error hread] at h
    cases h
  | ok s m =>
    rw [hname, after_ok] at hmoves
    subst hmoves
    rw [bind_ok (onMem_same hname)] at h
    exact ⟨s, hname, h⟩

theorem remove_acts (live : Stream → Prop) {pathname : Option Nat} {n : Int32}
    (hrun : (remove pathname).run w = .ok n w') :
    ∃ p path, pathname = some p ∧ Named w.mem p path ∧
      (n = -1 ∧ view live w' = view live w ∨
        n = 0 ∧ FileStore.Acts writeAt (view live w) (.removes path) (view live w')) := by
  cases pathname with
  | none => cases hrun
  | some p =>
    have hfirst := hrun
    rw [remove, bind_ok (unwrap_run p w)] at hfirst
    obtain ⟨path, hpath, -⟩ := named_of_ok hfirst
    refine ⟨p, path, rfl, hpath, ?_⟩
    rw [remove_run hpath] at hrun
    cases ha : w.fixed.alloc (w.kernel.policy.scratchFor [path]) 1 with
    | none =>
      rw [ha] at hrun
      obtain ⟨rfl, rfl⟩ := EStateM.Result.ok.inj hrun
      exact Or.inl ⟨rfl, rfl⟩
    | some alloc =>
      rw [ha] at hrun
      obtain ⟨rfl, rfl⟩ := EStateM.Result.ok.inj hrun
      unfold Kernel.deleteFile
      split
      · rename_i h
        obtain ⟨i, hi⟩ := Option.isSome_iff_exists.mp h.1
        exact Or.inr ⟨rfl, .removes hi⟩
      · exact Or.inl ⟨rfl, rfl⟩

theorem rename_acts (live : Stream → Prop) {old_filename new_filename : Option Nat} {n : Int32}
    (hrun : (rename old_filename new_filename).run w = .ok n w') :
    ∃ p q old new, old_filename = some p ∧ new_filename = some q ∧ Named w.mem p old ∧
      Named w.mem q new ∧ (n = -1 ∧ view live w' = view live w ∨
        n = 0 ∧ FileStore.Acts writeAt (view live w) (.renames old new) (view live w')) := by
  cases old_filename with
  | none => cases hrun
  | some p =>
    have hfirst := hrun
    rw [rename, bind_ok (unwrap_run p w)] at hfirst
    obtain ⟨old, hold, hrest⟩ := named_of_ok hfirst
    cases new_filename with
    | none => cases hrest
    | some q =>
      rw [bind_ok (unwrap_run q w)] at hrest
      obtain ⟨new, hnew, -⟩ := named_of_ok hrest
      refine ⟨p, q, old, new, rfl, rfl, hold, hnew, ?_⟩
      rw [rename_run hold hnew] at hrun
      cases ha : w.fixed.alloc (w.kernel.policy.scratchFor [old, new]) 1 with
      | none =>
        rw [ha] at hrun
        obtain ⟨rfl, rfl⟩ := EStateM.Result.ok.inj hrun
        exact Or.inl ⟨rfl, rfl⟩
      | some alloc =>
        rw [ha] at hrun
        obtain ⟨rfl, rfl⟩ := EStateM.Result.ok.inj hrun
        unfold Kernel.rename
        split
        · exact Or.inl ⟨rfl, rfl⟩
        · rename_i i hi
          split
          · exact Or.inl ⟨rfl, rfl⟩
          · refine Or.inr ⟨by split <;> rfl, ?_⟩
            have hrenames : FileStore.Acts writeAt (view live w) (.renames old new) _ :=
              .renames hi
            split
            · rename_i he
              simpa [view, Kernel.tick, he] using hrenames
            · rename_i he
              simpa [view, Kernel.tick, Kernel.name, he] using hrenames

end Paths

section Calls

variable {live : Stream → Prop} {w w' : World} {c : Call} {r : Option Stream}

theorem Call.uses_of_reopens {fd : Stream} (h : c.Reopens fd) : c.Uses fd := by
  cases c with
  | freopen | freopen64 | fclose => exact h
  | _ => exact h.elim

/-- What the store sees of a call that returned. -/
def Simulated (live : Stream → Prop) (w : World) (c : Call) (r : Option Stream) (w' : World) :
    Prop :=
  ∃ actions, (∀ a ∈ actions, c.Allows w.mem a) ∧
    Runs writeAt (view live w) actions (view (c.Leaves live r) w')

/-- A call that closes nothing and opens nothing. -/
theorem Doing.simulated {kept : Mem → Prop}
    (h : Doing live (fun a => c.Allows w.mem a) kept w w') (hc : ∀ fd, ¬ c.Reopens fd) :
    Simulated live w c none w' := by
  obtain ⟨actions, hall, hrun⟩ := h.runs
  refine ⟨actions, hall, ?_⟩
  have hleaves : view (c.Leaves live none) w' = view live w' :=
    view_congr (by simp [Call.Leaves, hc])
  rwa [hleaves]

theorem simulated_of_doing (kept : Mem → Prop) {α : Type} {x : Run World α} (ht : Tidy live w)
    (hkept : kept w.mem) (hc : ∀ fd, ¬ c.Reopens fd)
    (hx : Triple (Doing live (fun a => c.Allows w.mem a) kept w) x
      (fun _ => Doing live (fun a => c.Allows w.mem a) kept w) anything)
    (hrun : ((fun _ => none) <$> x).run w = .ok r w') : Simulated live w c r w' := by
  obtain ⟨a, hx', rfl⟩ := of_map_ok hrun
  have hdo := hx w (.refl ht hkept)
  rw [hx'] at hdo
  exact hdo.simulated hc

/-- A call that does one action on names or none. -/
theorem acts_simulated {a : Action (List UInt8) Stream UInt8} (hc : ∀ fd, ¬ c.Reopens fd)
    (hall : c.Allows w.mem a) (h : view live w' = view live w ∨
      FileStore.Acts writeAt (view live w) a (view live w')) : Simulated live w c none w' := by
  have hlive : view (c.Leaves live none) w' = view live w' :=
    view_congr (by simp [Call.Leaves, hc])
  rcases h with hview | hacts
  · refine ⟨[], by simp, ?_⟩
    rw [hlive, hview]
    exact .nil _
  · refine ⟨[a], by simpa using hall, ?_⟩
    rw [hlive]
    exact hacts.run

theorem fopen_simulated (filename mode : Nat) (ht : Tidy live w) (hc : ∀ fd, ¬ c.Reopens fd)
    (hall : ∀ a, (∃ fd path, Named w.mem filename path ∧ a = .opens fd path) → c.Allows w.mem a)
    (hrun : (fopen filename mode).run w = .ok r w') : Simulated live w c r w' := by
  rcases fopen_acts ht hrun with ⟨rfl, hview⟩ | ⟨fd, path, rfl, hname, hacts⟩
  · have hleaves : view (c.Leaves live none) w' = view live w' :=
      view_congr (by simp [Call.Leaves, hc])
    refine ⟨[], by simp, ?_⟩
    rw [hleaves, hview]
    exact .nil _
  · have hleaves : view (c.Leaves live (some fd)) w' =
        view (fun s => some fd = some s ∨ live s) w' := view_congr (by simp [Call.Leaves, hc])
    refine ⟨[.opens fd path], by simpa using hall _ ⟨fd, path, hname, rfl⟩, ?_⟩
    rw [hleaves]
    exact hacts.run

theorem freopen_simulated (filename mode : Nat) (ht : Tidy live w) {fd : Stream}
    (hfd : live fd) (hc : ∀ s, c.Reopens s ↔ s = fd)
    (hall : ∀ a, (a = .closes fd ∨ ∃ path, Named w.mem filename path ∧ a = .opens fd path) →
      c.Allows w.mem a)
    (hrun : (freopen (some filename) mode (some fd)).run w = .ok r w') :
    Simulated live w c r w' := by
  obtain ⟨actions, hacts, hruns⟩ := freopen_acts ht hfd hrun
  refine ⟨actions, fun a ha => hall a (hacts a ha), ?_⟩
  have hleaves : view (c.Leaves live r) w' = view (fun s => r = some s ∨ live s ∧ s ≠ fd) w' :=
    view_congr (by simp [Call.Leaves, hc])
  rwa [hleaves]

theorem fclose_simulated (ht : Tidy live w) {fd : Stream} (hfd : live fd)
    (hrun : (Call.fclose (some fd)).run.run w = .ok r w') :
    Simulated live w (.fclose (some fd)) r w' := by
  obtain ⟨n, hclose, rfl⟩ := of_map_ok hrun
  rw [fclose_run] at hclose
  obtain ⟨-, rfl⟩ := EStateM.Result.ok.inj hclose
  have hleaves : view (Call.Leaves live none (.fclose (some fd))) (closed fd (looked w)) =
      view (fun s => live s ∧ s ≠ fd) (closed fd (looked w)) :=
    view_congr (by simp [Call.Leaves, Call.Reopens, eq_comm])
  refine ⟨[.closes fd], by simp [Call.Allows], ?_⟩
  rw [hleaves]
  exact (close_acts ht hfd).run

/-- Every call that returns is a group of actions of the store. -/
theorem call_simulated (ht : Tidy live w) (huse : ∀ fd, c.Uses fd → live fd)
    (hrun : c.run.run w = .ok r w') : Simulated live w c r w' := by
  cases c with
  | fopen filename mode | fopen64 filename mode =>
    exact fopen_simulated filename mode ht (fun _ h => h) (fun _ h => h) hrun
  | freopen filename mode stream | freopen64 filename mode stream =>
    cases filename with
    | none => cases hrun
    | some filename =>
      cases stream with
      | none =>
        rw [show (Call.run _).run w = (freopen (some filename) mode none).run w from rfl,
          freopen_eq, bind_error (lookup_none w)] at hrun
        cases hrun
      | some fd =>
        refine freopen_simulated filename mode ht (huse fd rfl) (fun s => ?_) (fun _ h => h) hrun
        simp [Call.Reopens, eq_comm]
  | fclose stream =>
    cases stream with
    | none =>
      obtain ⟨n, hclose, -⟩ := of_map_ok hrun
      rw [fclose, bind_error (lookup_none w)] at hclose
      cases hclose
    | some fd => exact fclose_simulated ht (huse fd rfl) hrun
  | rename old_filename new_filename =>
    obtain ⟨n, hcall, rfl⟩ := of_map_ok hrun
    obtain ⟨p, q, old, new, rfl, rfl, hold, hnew, hacts⟩ := rename_acts live hcall
    exact acts_simulated (fun _ h => h) ⟨old, new, hold, hnew, rfl⟩
      (hacts.imp (·.2) (·.2))
  | remove pathname =>
    obtain ⟨n, hcall, rfl⟩ := of_map_ok hrun
    obtain ⟨p, path, rfl, hname, hacts⟩ := remove_acts live hcall
    exact acts_simulated (fun _ h => h) ⟨path, hname, rfl⟩ (hacts.imp (·.2) (·.2))
  | fseek stream offset origin =>
    exact simulated_of_doing (fun _ => True) ht trivial (fun _ h => h)
      (doing_fseek huse (fun fd p hfd => ⟨fd, p, hfd, rfl⟩) offset origin) hrun
  | ftell stream =>
    exact simulated_of_doing (fun _ => True) ht trivial (fun _ h => h)
      (doing_ftell huse) hrun
  | rewind stream =>
    exact simulated_of_doing (fun _ => True) ht trivial (fun _ h => h)
      (doing_rewind huse (fun fd p hfd => ⟨fd, p, hfd, rfl⟩)) hrun
  | fread buffer size count stream =>
    exact simulated_of_doing (fun _ => True) ht trivial (fun _ h => h)
      (doing_fread huse (fun _ => trivial) (fun fd got hfd => ⟨fd, got, hfd, rfl⟩) buffer size
        count) hrun
  | fwrite buffer size count stream =>
    exact simulated_of_doing (· = w.mem) ht rfl (fun _ h => h)
      (doing_fwriteFrom huse (slice_moves buffer)
        fun fd s put hfd hs hput => ⟨fd, s, put, hfd, hs, hput, rfl⟩) hrun
  | fgetc stream | getc stream | _IO_getc stream =>
    exact simulated_of_doing (fun _ => True) ht trivial (fun _ h => h)
      (doing_fgetc huse fun fd got hfd => ⟨fd, got, hfd, rfl⟩) hrun
  | getchar =>
    exact simulated_of_doing (fun _ => True) ht trivial (fun _ h => h)
      (doing_fgetc (fun fd (hfd : some .stdin_file = some fd) => huse fd (Option.some.inj hfd).symm)
        fun fd got hfd => ⟨got, by rw [Option.some.inj hfd]⟩) hrun
  | fputc ch stream | putc ch stream =>
    exact simulated_of_doing (fun _ => True) ht trivial (fun _ h => h)
      (doing_fputc huse fun fd b put hfd hb hput => ⟨fd, b, put, hfd, hb, hput, rfl⟩) hrun
  | putchar ch =>
    exact simulated_of_doing (fun _ => True) ht trivial (fun _ h => h)
      (doing_fputc (fun fd (hfd : some .stdout_file = some fd) => huse fd (Option.some.inj hfd).symm)
        fun fd b put hfd hb hput => ⟨b, put, hb, hput, by rw [Option.some.inj hfd]⟩) hrun
  | fputs str stream =>
    exact simulated_of_doing (· = w.mem) ht rfl (fun _ h => h)
      (doing_fputs huse fun fd p s put hfd hstr hs hput =>
        ⟨fd, p, s, put, hfd, hstr, hs, hput, rfl⟩) hrun
  | puts str =>
    exact simulated_of_doing (· = w.mem) ht rfl (fun _ h => h)
      (doing_fputs (fun fd (hfd : some .stdout_file = some fd) => huse fd (Option.some.inj hfd).symm)
        fun fd p s put hfd hstr hs hput =>
          ⟨s, put, by rwa [optional_eq hstr], hput, by rw [Option.some.inj hfd]⟩) hrun
  | fgets s size stream =>
    exact simulated_of_doing (fun _ => True) ht trivial (fun _ h => h)
      (doing_fgets huse (fun _ => trivial) (fun fd got hfd => ⟨fd, got, hfd, rfl⟩) s size) hrun
  | test_fprintf stream fmt =>
    exact simulated_of_doing (· = w.mem) ht rfl (fun _ h => h)
      (doing_test_fprintf huse (fun fd put hfd => ⟨fd, put, hfd, rfl⟩) fmt) hrun
  | clearerr | feof | ferror | fflush | setvbuf =>
    exact simulated_of_doing (fun _ => True) ht trivial (fun _ h => h)
      (triple_pure fun _ h => h) hrun

end Calls

/-- Every call of the run uses live streams only. -/
def Proper : (Stream → Prop) → World → List Call → Prop
  | _, _, [] => True
  | live, w, c :: calls =>
    (∀ fd, c.Uses fd → live fd) ∧
      ∀ r w', c.run.run w = .ok r w' → Proper (c.Leaves live r) w' calls

/-- The run of calls is the run of actions: each call is a group of actions that it allows. -/
inductive Mirrors : (Stream → Prop) → World → List Call →
    List (Action (List UInt8) Stream UInt8) → (Stream → Prop) → World → Prop where
  | nil (live : Stream → Prop) (w : World) : Mirrors live w [] [] live w
  | cons {live live' : Stream → Prop} {w w₁ w' : World} {c : Call} {calls : List Call}
      {r : Option Stream} {actions rest : List (Action (List UInt8) Stream UInt8)} :
      c.run.run w = .ok r w₁ → (∀ a ∈ actions, c.Allows w.mem a) →
      Runs writeAt (view live w) actions (view (c.Leaves live r) w₁) →
      Mirrors (c.Leaves live r) w₁ calls rest live' w' →
      Mirrors live w (c :: calls) (actions ++ rest) live' w'

section Runs

variable {live live' : Stream → Prop} {w w' : World} {calls : List Call}
  {actions : List (Action (List UInt8) Stream UInt8)}

theorem Mirrors.runs (h : Mirrors live w calls actions live' w') :
    Runs writeAt (view live w) actions (view live' w') := by
  induction h with
  | nil => exact .nil _
  | cons _ _ hruns _ ih => exact hruns.append ih

/-- What no call of the run allows is not among the actions. -/
theorem Mirrors.forall {P : Action (List UInt8) Stream UInt8 → Prop}
    (h : Mirrors live w calls actions live' w')
    (hall : Meets (fun w c => ∀ a, c.Allows w.mem a → P a) w calls) : ∀ a ∈ actions, P a := by
  induction h with
  | nil => simp
  | cons hrun hacts _ _ ih =>
    intro a ha
    rcases List.mem_append.mp ha with ha | ha
    · exact hall.1 a (hacts a ha)
    · exact ih (hall.2 _ _ hrun) a ha

/-- The kernel gives every file at most one name. -/
def SinglyNamed (k : Kernel) : Prop :=
  ∀ p q i, k.paths p = some i → k.paths q = some i → p = q

theorem view_wellFormed (live : Stream → Prop) (h : SinglyNamed w.kernel) : WellFormed (view live w) := by
  refine ⟨w.kernel.named, fun s h' hs => ?_, h⟩
  simp only [view] at hs
  split at hs
  · obtain ⟨d, hd, rfl⟩ := Option.map_eq_some_iff.mp hs
    obtain ⟨n, -, hn⟩ := Option.bind_eq_some_iff.mp hd
    exact w.kernel.opened n d hn
  · cases hs

/-- Call after call, a run that uses live streams only follows the store. -/
theorem runCalls_mirrors (ht : Tidy live w) (hm : Meets Call.Restores w calls)
    (hp : Proper live w calls) (hrun : (runCalls calls).run w = .ok () w') :
    ∃ live' actions, Tidy live' w' ∧ Mirrors live w calls actions live' w' := by
  induction calls generalizing live w with
  | nil =>
    obtain rfl : w = w' := (EStateM.Result.ok.inj hrun).2
    exact ⟨live, [], ht, .nil live w⟩
  | cons c calls ih =>
    cases hcall : c.run.run w with
    | ok r w₁ =>
      have hout := call_outcome ht.settled hm.1 w rfl
      rw [hcall] at hout
      rw [runCalls, bind_ok hcall] at hrun
      have ht₁ := hout.tidy ht fun fd h => hp.1 fd (Call.uses_of_reopens h)
      obtain ⟨actions, hall, hruns⟩ := call_simulated ht hp.1 hcall
      obtain ⟨live', rest, ht', hf⟩ := ih ht₁ (hm.2 r w₁ hcall) (hp.2 r w₁ hcall) hrun
      exact ⟨live', actions ++ rest, ht', .cons hcall hall hruns hf⟩
    | error e w₁ =>
      rw [runCalls, bind_error hcall] at hrun
      cases hrun

/-- A run that uses live streams only is a run of the store, whatever fails in it. Its live streams
stay on descriptors of their own, and every file keeps at most one name. -/
theorem calls_simulated (ht : Tidy live w) (hm : Meets Call.Restores w calls)
    (hp : Proper live w calls) (hrun : (runCalls calls).run w = .ok () w') :
    ∃ live' actions, Tidy live' w' ∧ Mirrors live w calls actions live' w' ∧
      Runs writeAt (view live w) actions (view live' w') ∧
      (SinglyNamed w.kernel → SinglyNamed w'.kernel) := by
  obtain ⟨live', actions, ht', hf⟩ := runCalls_mirrors ht hm hp hrun
  exact ⟨live', actions, ht', hf, hf.runs, fun hs =>
    (hf.runs.wellFormed (view_wellFormed live hs)).single⟩

end Runs

/-- Opening the file "a", writing to standard output and removing the file. -/
def scratchRun : List Call := [.fopen 0x10000 0x10002, .putchar 65, .remove (some 0x10000)]

theorem scratchRun_meets (w : World) : Meets Call.Restores w scratchRun :=
  ⟨trivial, fun _ _ _ => ⟨trivial, fun _ _ _ => ⟨trivial, fun _ _ _ => trivial⟩⟩⟩

theorem scratchRun_proper (w : World) :
    Proper (fun fd => (standard fd).isSome) w scratchRun := by
  refine ⟨fun _ h => h.elim, fun _ _ _ => ⟨?_, fun _ _ _ => ⟨fun _ h => h.elim, ?_⟩⟩⟩
  · rintro _ rfl
    exact Or.inr ⟨rfl, fun h => h⟩
  · exact fun _ _ _ => trivial

theorem calls_simulated_example :
    ∃ live' actions,
      Tidy live' (after ((runCalls scratchRun).run (readyWorld stringMem []))) ∧
      Mirrors (fun fd => (standard fd).isSome) (readyWorld stringMem []) scratchRun actions live'
        (after ((runCalls scratchRun).run (readyWorld stringMem []))) ∧
      Runs writeAt (view (fun fd => (standard fd).isSome) (readyWorld stringMem [])) actions
        (view live' (after ((runCalls scratchRun).run (readyWorld stringMem [])))) ∧
      (SinglyNamed (readyWorld stringMem []).kernel →
        SinglyNamed (after ((runCalls scratchRun).run (readyWorld stringMem []))).kernel) :=
  calls_simulated (ready_tidy _ _) (scratchRun_meets _) (scratchRun_proper _)
    (ok_of_value (a := ()) (by decide +kernel))

end Stdio
