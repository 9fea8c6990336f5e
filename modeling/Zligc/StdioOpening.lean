import Zligc.StdioStream

/-!
# Opening and closing

fopen and freopen end alike: they open the path for writing, whatever the mode,
and keep the File in the record of the stream. freopen closes the stream
before, and neither lookups nor the other calls change a record.
-/
namespace Stdio

open Effect Zig Zligc OsFile Function

/-- The common end of fopen and freopen. -/
def openInto (filename : Nat) (fd : Stream) : Run World (Option Stream) := do
  let some file ← File.openWrite (← onMem (Slice.toSliceConst filename)) | return none
  File.assign fd (some file)
  return some fd

theorem fopen_eq (filename mode : Nat) :
    fopen filename mode = (do
      let some addr ← reserve sizeOfFile sizeOfFile | return none
      File.assign (.created addr) none
      openInto filename (.created addr)) := rfl

theorem freopen_eq (filename mode : Nat) (stream : Option Stream) :
    freopen (some filename) mode stream = (do
      let fd ← readOpaqueHandle stream
      File.close fd
      openInto filename fd) := rfl

/-- An open for writing finds scratch memory and a descriptor, and it does not fail. -/
def Openable (fixed : Allocator.FixedBuffer) (k : Kernel) (path : List UInt8) : Prop :=
  (fixed.alloc (k.policy.scratch path) 1).isSome ∧ k.policy.fails k.clock = false ∧
    (k.policy.descriptor k.table).isSome

/-- What a step leaves as it was that neither looks a handle up nor frees memory. -/
structure Steady (w w' : World) : Prop where
  resolved : w'.resolved = w.resolved
  policy : w'.kernel.policy = w.kernel.policy
  base : w'.fixed.base = w.fixed.base
  used : w.fixed.end_index ≤ w'.fixed.end_index

/-- The outcomes of opening a path for a stream. -/
inductive Opening (path : List UInt8) (fd : Stream) (w : World) : Option Stream → World → Prop where
  | failed {w' : World} : ¬ Openable w.fixed w.kernel path → Steady w w' →
      w'.records = w.records → w'.kernel.table = w.kernel.table → Opening path fd w none w'
  | opened {w' : World} {file : Int32} {i : Nat} : Openable w.fixed w.kernel path → Steady w w' →
      w.kernel.policy.descriptor w.kernel.table = some file →
      w'.records = update w.records fd (some file) →
      w'.kernel.table = update w.kernel.table file (some ⟨i, 0, false, true⟩) →
      w'.kernel.paths path = some i → w'.kernel.contents = update w.kernel.contents i [] →
      i = w.kernel.target path → Opening path fd w (some fd) w'

theorem openWrite_fails (k : Kernel) (path : List UInt8)
    (h : k.policy.fails k.clock = true ∨ k.policy.descriptor k.table = none) :
    k.openWrite path = (k.tick, none) := by
  unfold Kernel.openWrite
  split
  · rfl
  · rename_i hf
    rw [h.resolve_left hf]

theorem openWrite_opens {k : Kernel} (path : List UInt8) {file : Int32}
    (hf : k.policy.fails k.clock = false) (hd : k.policy.descriptor k.table = some file) :
    k.openWrite path = ((k.truncated path file).tick, some file) := by
  unfold Kernel.openWrite
  rw [if_neg (by simp [hf]), hd]

/-- An open for writing fails, or it empties the file and gives it a free descriptor. -/
theorem openWrite_cases (path : List UInt8) (fd : Stream) (w : World) :
    (∃ w', (File.openWrite path).run w = .ok none w' ∧ w'.mem = w.mem ∧
      Opening path fd w none w') ∨
    ∃ file w', (File.openWrite path).run w = .ok (some file) w' ∧ w'.mem = w.mem ∧
      Opening path fd w (some fd) { w' with records := update w'.records fd (some file) } := by
  have hopen := onPaths_run [path] (·.openWrite path) none w
  rw [Policy.scratchFor, Policy.scratchFor, Nat.add_zero] at hopen
  cases ha : w.fixed.alloc (w.kernel.policy.scratch path) 1 with
  | none =>
    rw [ha] at hopen
    refine Or.inl ⟨w, hopen, rfl, .failed (fun h => ?_) ⟨rfl, rfl, rfl, Nat.le_refl _⟩ rfl rfl⟩
    simp [Openable, ha] at h
  | some r =>
    obtain ⟨addr, fixed⟩ := r
    obtain ⟨hbase, hle, hend⟩ := Allocator.alloc_spec ha
    have hused : w.fixed.end_index ≤ fixed.end_index := by omega
    rw [ha] at hopen
    simp only at hopen
    by_cases hno : w.kernel.policy.fails w.kernel.clock = true ∨
        w.kernel.policy.descriptor w.kernel.table = none
    · rw [openWrite_fails w.kernel path hno] at hopen
      refine Or.inl ⟨_, hopen, rfl, .failed (fun h => ?_) ⟨rfl, rfl, hbase, hused⟩ rfl rfl⟩
      obtain ⟨_, hf, hd⟩ := h
      rcases hno with hno | hno
      · simp [hno] at hf
      · simp [hno] at hd
    · simp only [not_or, Bool.not_eq_true] at hno
      obtain ⟨file, hd⟩ := Option.ne_none_iff_exists'.mp hno.2
      rw [openWrite_opens path hno.1 hd] at hopen
      refine Or.inr ⟨file, _, hopen, rfl, .opened ⟨by simp [ha], hno.1, by simp [hd]⟩
        ⟨rfl, rfl, hbase, hused⟩ hd rfl rfl ?_ rfl rfl⟩
      exact update_self _ _ _

/-- The end of fopen and freopen opens the file or leaves the record of the stream alone; it faults
only where the name cannot be read. -/
theorem openInto_cases (filename : Nat) (fd : Stream) (w : World) :
    (∃ e m, (openInto filename fd).run w = .error e { w with mem := m }) ∨
    ∃ path m r w', (Slice.toSliceConst filename).run w.mem = .ok path m ∧
      (openInto filename fd).run w = .ok r w' ∧ w'.mem = m ∧
      Opening path fd { w with mem := m } r w' := by
  cases hname : (Slice.toSliceConst filename).run w.mem with
  | error e m =>
    have hread : (onMem (Slice.toSliceConst filename)).run w = .error e { w with mem := m } := by
      rw [run_onMem, hname]
    exact Or.inl ⟨e, m, by rw [openInto, bind_error hread]⟩
  | ok path m =>
    have hread : (onMem (Slice.toSliceConst filename)).run w = .ok path { w with mem := m } := by
      rw [run_onMem, hname]
    refine Or.inr ⟨path, m, ?_⟩
    rw [openInto, bind_ok hread]
    rcases openWrite_cases path fd { w with mem := m } with
      ⟨w', hopen, hmem, hout⟩ | ⟨file, w', hopen, hmem, hout⟩
    · refine ⟨none, w', rfl, ?_, hmem, hout⟩
      rw [bind_ok hopen]
      rfl
    · refine ⟨some fd, { w' with records := update w'.records fd (some file) }, rfl, ?_, hmem, hout⟩
      rw [bind_ok hopen]
      rfl

/-- The state in which the File of a stream has been closed. -/
def closed (fd : Stream) (w : World) : World :=
  let h := (w.records fd).getD w.undefinedHandle
  { w with
    kernel := w.kernel.close h
    records := update w.records fd (w.kernel.policy.closed h)
    events := w.events ++ [.dereference fd (w.records fd).isSome] }

theorem close_run (fd : Stream) (w : World) : (File.close fd).run w = .ok () (closed fd w) := by
  rw [File.close, bind_ok (apply_run fd _ w), assign_run]
  rfl

theorem fclose_run (fd : Stream) (w : World) :
    (fclose (some fd)).run w = .ok 0 (closed fd (looked w)) := by
  rw [fclose, bind_ok (lookup_some fd w), bind_ok (close_run fd _)]
  rfl

/-- freopen closes the stream and opens the path for it. -/
theorem freopen_run (filename mode : Nat) (fd : Stream) (w : World) :
    (freopen (some filename) mode (some fd)).run w =
      (openInto filename fd).run (closed fd (looked w)) := by
  rw [freopen_eq, bind_ok (lookup_some fd w), bind_ok (close_run fd _)]

/-- fopen opens the path for a record at a fresh address. -/
theorem fopen_run {addr : Nat} {fixed : Allocator.FixedBuffer} (filename mode : Nat) {w : World}
    (h : w.fixed.alloc sizeOfFile sizeOfFile = some (addr, fixed)) :
    (fopen filename mode).run w =
      (openInto filename (.created addr)).run { w with
        fixed := fixed
        records := update w.records (.created addr) none } := by
  rw [fopen_eq, bind_ok (reserve_some h)]
  rfl

theorem fopen_full (filename mode : Nat) {w : World}
    (h : w.fixed.alloc sizeOfFile sizeOfFile = none) :
    (fopen filename mode).run w = .ok none w := by
  rw [fopen_eq, bind_ok (reserve_none h)]
  rfl

end Stdio
