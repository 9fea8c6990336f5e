import Zligc.StdioCalls

/-!
# Open streams

A stream is open when the lookup of its handle finds the descriptor that its
record already holds. It is a source when that descriptor is open for reading,
with the bytes that are left to read, and a sink when it is open for writing,
with the content of its file and the place where the next byte goes.
-/
namespace Stdio

open Effect Zig Zligc OsFile Function

/-- The record of `fd` holds the handle `h`, the lookup leaves it there, and `h` is open as `d`. -/
structure Held (w : World) (fd : Stream) (h : Int32) (d : Description) : Prop where
  record : w.records fd = some h
  own : ∀ n, standard fd = some n → h = n ∧ w.resolved ≠ 0
  described : w.kernel.table h = some d

/-- The same, where no operation of the system fails. -/
structure Open (w : World) (fd : Stream) (h : Int32) (d : Description) : Prop
    extends held : Held w fd h d where
  reliable : ∀ n, w.kernel.policy.fails n = false

/-- The next `n` operations of the system succeed. -/
def Working (w : World) (n : Nat) : Prop :=
  ∀ j, j < n → w.kernel.policy.fails (w.kernel.clock + j) = false

/-- The stream can be read, and `rest` is left of it. -/
def Readable (w : World) (fd : Stream) (rest : List UInt8) : Prop :=
  ∃ h d, Held w fd h d ∧ d.readable = true ∧ (w.kernel.contents d.inode).drop d.offset = rest

/-- `rest` is left to read. -/
def Source (w : World) (fd : Stream) (rest : List UInt8) : Prop :=
  ∃ h d, Open w fd h d ∧ d.readable = true ∧ (w.kernel.contents d.inode).drop d.offset = rest

/-- The next byte goes to `offset` in a file that holds `content`. -/
def Sink (w : World) (fd : Stream) (content : List UInt8) (offset : Nat) : Prop :=
  ∃ h d, Open w fd h d ∧ d.writable = true ∧ w.kernel.contents d.inode = content ∧
    d.offset = offset

section Streams

variable {w : World} {fd : Stream} {h : Int32} {d : Description} {content : List UInt8}
  {offset : Nat}

theorem looked_record (w : World) (hrec : w.records fd = some h)
    (hown : ∀ n, standard fd = some n → h = n) : (looked w).records fd = some h := by
  unfold looked
  split
  · exact hrec
  · simp only [initialised]
    cases hs : standard fd with
    | none => exact hrec
    | some n => rw [hown n hs]

@[simp] theorem looked_kernel (w : World) : (looked w).kernel = w.kernel := by
  unfold looked
  split <;> rfl

@[simp] theorem looked_mem (w : World) : (looked w).mem = w.mem := by
  unfold looked
  split <;> rfl

@[simp] theorem looked_undefinedByte (w : World) :
    (looked w).undefinedByte = w.undefinedByte := by
  unfold looked
  split <;> rfl

@[simp] theorem looked_undefinedHandle (w : World) :
    (looked w).undefinedHandle = w.undefinedHandle := by
  unfold looked
  split <;> rfl

theorem looked_resolved (w : World) : (looked w).resolved ≠ 0 := by
  unfold looked
  split
  · exact (by decide : (1 : UInt8) ≠ 0)
  · assumption

theorem Held.looked (hw : Held w fd h d) : Held (looked w) fd h d := by
  constructor
  · exact looked_record w hw.record fun n hn => (hw.own n hn).1
  · exact fun n hn => ⟨(hw.own n hn).1, looked_resolved w⟩
  · rw [looked_kernel]
    exact hw.described

/-- The lookup of an open stream leaves it open. -/
theorem Open.looked (hw : Open w fd h d) : Open (looked w) fd h d := by
  refine ⟨hw.held.looked, ?_⟩
  rw [looked_kernel]
  exact hw.reliable

/-- An operation on the handle of a stream. -/
theorem Held.apply {β : Type} (hw : Held w fd h d) (f : Kernel → Int32 → Kernel × β) :
    (File.apply fd f).run w = .ok (f w.kernel h).2 { w with
      kernel := (f w.kernel h).1
      events := w.events ++ [.dereference fd true] } := by
  rw [apply_run, hw.record]
  rfl

/-- The stream keeps its handle where only the offset of its descriptor has changed. -/
theorem Held.moved (hw : Held w fd h d) {w' : World} (hrec : w'.records fd = w.records fd)
    (hres : w'.resolved = w.resolved)
    (htable : w'.kernel.table = update w.kernel.table h (some { d with offset := offset })) :
    Held w' fd h { d with offset := offset } := by
  constructor
  · rw [hrec]
    exact hw.record
  · rw [hres]
    exact hw.own
  · rw [htable, update_self]

/-- A record holds one handle, open as one description. -/
theorem Held.unique {h' : Int32} {d' : Description} (hw : Held w fd h d) (hw' : Held w fd h' d') :
    h' = h ∧ d' = d := by
  obtain rfl := Option.some.inj (hw'.record.symm.trans hw.record)
  exact ⟨rfl, Option.some.inj (hw'.described.symm.trans hw.described)⟩

/-- Streams do not depend on memory. -/
theorem Held.memory (hw : Held w fd h d) (m : Mem) : Held { w with mem := m } fd h d :=
  ⟨hw.record, hw.own, hw.described⟩

theorem Open.memory (hw : Open w fd h d) (m : Mem) : Open { w with mem := m } fd h d :=
  ⟨hw.held.memory m, hw.reliable⟩

/-- From `w` to `w'` only the stream `fd` was used: its offset may have moved and its file may have
changed, but streams on other descriptors and other files are as they were. -/
structure Beside (fd : Stream) (w w' : World) : Prop where
  moved : ∀ h d, Open w fd h d → ∃ offset, Open w' fd h { d with offset := offset }
  files : ∀ h d, Open w fd h d → ∀ i, i ≠ d.inode →
    w'.kernel.contents i = w.kernel.contents i
  others : ∀ fd' h' d', Open w fd' h' d' → w.records fd ≠ some h' → Open w' fd' h' d'

theorem Beside.trans {w' w'' : World} (hopen : Open w fd h d) (hw : Beside fd w w')
    (hw' : Beside fd w' w'') : Beside fd w w'' := by
  obtain ⟨offset, hmoved⟩ := hw.moved h d hopen
  constructor
  · intro h₁ d₁ hopen₁
    obtain ⟨offset₁, hmoved₁⟩ := hw.moved h₁ d₁ hopen₁
    obtain ⟨offset₂, hmoved₂⟩ := hw'.moved h₁ _ hmoved₁
    exact ⟨offset₂, hmoved₂⟩
  · intro h₁ d₁ hopen₁ i hi
    obtain ⟨offset₁, hmoved₁⟩ := hw.moved h₁ d₁ hopen₁
    rw [hw'.files h₁ _ hmoved₁ i hi, hw.files h₁ d₁ hopen₁ i hi]
  · intro fd' h' d' hopen' hne
    apply hw'.others fd' h' d' (hw.others fd' h' d' hopen' hne)
    rw [hmoved.record, ← hopen.record]
    exact hne

theorem Beside.refl (fd : Stream) (w : World) : Beside fd w w :=
  ⟨fun _ d hopen => ⟨d.offset, hopen⟩, fun _ _ _ _ _ => rfl, fun _ _ _ hopen _ => hopen⟩

theorem beside_looked (fd : Stream) (w : World) : Beside fd w (Stdio.looked w) := by
  refine ⟨fun _ d hopen => ⟨d.offset, hopen.looked⟩, fun _ _ _ _ _ => ?_, ?_⟩
  · rw [looked_kernel]
  · exact fun _ _ _ hopen _ => hopen.looked

/-- A step that only moves the descriptor of the stream and changes its file. -/
theorem Open.beside (hw : Open w fd h d) {w' : World} (hrec : w'.records = w.records)
    (hres : w'.resolved = w.resolved)
    (htable : w'.kernel.table = update w.kernel.table h (some { d with offset := offset }))
    (hpolicy : w'.kernel.policy = w.kernel.policy)
    (hfiles : ∀ i, i ≠ d.inode → w'.kernel.contents i = w.kernel.contents i) :
    Beside fd w w' := by
  constructor
  · intro h₁ d₁ hopen₁
    obtain ⟨rfl, rfl⟩ := hw.unique hopen₁.held
    refine ⟨offset, hw.moved (by rw [hrec]) hres htable, ?_⟩
    rw [hpolicy]
    exact hw.reliable
  · intro h₁ d₁ hopen₁
    obtain ⟨rfl, rfl⟩ := hw.unique hopen₁.held
    exact hfiles
  · intro fd' h' d' hopen' hne
    have hother : h' ≠ h := by
      rintro rfl
      exact hne hw.record
    refine ⟨⟨?_, ?_, ?_⟩, ?_⟩
    · rw [hrec]
      exact hopen'.record
    · rw [hres]
      exact hopen'.own
    · rw [htable, update_of_ne hother]
      exact hopen'.described
    · rw [hpolicy]
      exact hopen'.reliable

/-- Two streams on different descriptors of different files. -/
def Separate (w : World) (fd fd' : Stream) : Prop :=
  ∃ h d h' d', Open w fd h d ∧ Open w fd' h' d' ∧ h ≠ h' ∧ d.inode ≠ d'.inode

theorem Separate.symm {fd' : Stream} (hw : Separate w fd fd') : Separate w fd' fd := by
  obtain ⟨h, d, h', d', hopen, hopen', hne, hfile⟩ := hw
  exact ⟨h', d', h, d, hopen', hopen, hne.symm, hfile.symm⟩

/-- Using one of two separate streams leaves them separate. -/
theorem Separate.beside {fd' : Stream} {w' : World} (hw : Separate w fd fd')
    (hb : Beside fd w w') : Separate w' fd fd' := by
  obtain ⟨h, d, h', d', hopen, hopen', hne, hfile⟩ := hw
  obtain ⟨offset, hmoved⟩ := hb.moved h d hopen
  have hother : w.records fd ≠ some h' := by
    rw [hopen.record]
    exact fun he => hne (Option.some.inj he)
  exact ⟨h, _, h', d', hmoved, hb.others fd' h' d' hopen' hother, hne, hfile⟩

/-- The other one is as it was. -/
theorem Separate.other {fd' : Stream} {w' : World} {h' : Int32} {d' : Description}
    (hw : Separate w fd fd') (hb : Beside fd w w') (hopen : Open w fd' h' d') :
    Open w' fd' h' d' ∧ w'.kernel.contents d'.inode = w.kernel.contents d'.inode := by
  obtain ⟨h, d, h₁, d₁, hopen₀, hopen₁, hne, hfile⟩ := hw
  obtain ⟨rfl, rfl⟩ := hopen.unique hopen₁.held
  constructor
  · apply hb.others fd' h₁ d₁ hopen
    rw [hopen₀.record]
    exact fun he => hne (Option.some.inj he)
  · exact hb.files h d hopen₀ d₁.inode hfile.symm

theorem Sink.beside {fd' : Stream} {w' : World} (hw : Sink w fd' content offset)
    (hs : Separate w fd fd') (hb : Beside fd w w') : Sink w' fd' content offset := by
  obtain ⟨h', d', hopen, hd, hc, ho⟩ := hw
  obtain ⟨hopen', hsame⟩ := hs.other hb hopen
  exact ⟨h', d', hopen', hd, by rw [hsame]; exact hc, ho⟩

theorem Source.beside {fd' : Stream} {w' : World} {rest : List UInt8} (hw : Source w fd' rest)
    (hs : Separate w fd fd') (hb : Beside fd w w') : Source w' fd' rest := by
  obtain ⟨h', d', hopen, hd, hrest⟩ := hw
  obtain ⟨hopen', hsame⟩ := hs.other hb hopen
  exact ⟨h', d', hopen', hd, by rw [hsame]; exact hrest⟩

theorem Sink.opened (hw : Sink w fd content offset) : ∃ h d, Open w fd h d := by
  obtain ⟨h, d, hopen, _⟩ := hw
  exact ⟨h, d, hopen⟩

/-- What is left to read is determined by the state. -/
theorem Source.unique {rest rest' : List UInt8} (hw : Source w fd rest)
    (hw' : Source w fd rest') : rest = rest' := by
  obtain ⟨h, d, hopen, _, rfl⟩ := hw
  obtain ⟨h', d', hopen', _, rfl⟩ := hw'
  obtain ⟨rfl, rfl⟩ := hopen.unique hopen'.held
  rfl

/-- The content and the place of a sink are determined by the state. -/
theorem Sink.offset_unique {content' : List UInt8} {offset' : Nat} (hw : Sink w fd content offset)
    (hw' : Sink w fd content' offset') : offset = offset' := by
  obtain ⟨h, d, hopen, _, _, rfl⟩ := hw
  obtain ⟨h', d', hopen', _, _, rfl⟩ := hw'
  obtain ⟨rfl, rfl⟩ := hopen.unique hopen'.held
  rfl

theorem Sink.looked (hw : Sink w fd content offset) : Sink (looked w) fd content offset := by
  obtain ⟨h, d, hopen, hd, hc, ho⟩ := hw
  exact ⟨h, d, hopen.looked, hd, by rw [looked_kernel]; exact hc, ho⟩

/-- Writing to a sink writes at its offset, which then stands behind the bytes. -/
theorem Sink.write (hw : Sink w fd content offset) (bytes : List UInt8) :
    ∃ w', (File.write fd bytes).run w = .ok true w' ∧ w'.mem = w.mem ∧
      Sink w' fd (writeAt content offset bytes) (offset + bytes.length) ∧ Beside fd w w' := by
  obtain ⟨h, d, hopen, hd, rfl, rfl⟩ := hw
  have hrun := hopen.held.apply (·.write · bytes)
  rw [Kernel.write_all hopen.described hd (hopen.reliable _)] at hrun
  have htable := Kernel.seek_table { w.kernel with
    contents := update w.kernel.contents d.inode
      (writeAt (w.kernel.contents d.inode) d.offset bytes) } hopen.described
    (d.offset + bytes.length)
  refine ⟨_, hrun, rfl, ⟨h, { d with offset := d.offset + bytes.length },
    ⟨hopen.moved rfl rfl htable, fun n => ?_⟩, hd, ?_, rfl⟩,
    hopen.beside rfl rfl htable (Kernel.seek_policy _ _ _) fun i hi => ?_⟩
  · simp only [Kernel.tick, Kernel.seek_policy]
    exact hopen.reliable n
  · simp [Kernel.tick]
  · simp only [Kernel.tick, Kernel.seek_contents]
    exact update_of_ne hi _ _

/-- The same after the lookup of the handle. -/
theorem Sink.write_looked (hw : Sink w fd content offset) (bytes : List UInt8) :
    ∃ w', (File.write fd bytes).run (Stdio.looked w) = .ok true w' ∧ w'.mem = w.mem ∧
      Sink w' fd (writeAt content offset bytes) (offset + bytes.length) ∧ Beside fd w w' := by
  obtain ⟨h, d, hopen⟩ := hw.opened
  obtain ⟨w', hwrite, hmem, hsink, hbeside⟩ := hw.looked.write bytes
  rw [looked_mem] at hmem
  exact ⟨w', hwrite, hmem, hsink, (beside_looked fd w).trans hopen hbeside⟩

/-- From `w` to `w'` the stream `fd` was read by a number of operations that took `k` bytes from
it. Streams on other descriptors and all files are as they were. -/
structure Took (fd : Stream) (operations k : Nat) (w w' : World) : Prop where
  policy : w'.kernel.policy = w.kernel.policy
  clock : w'.kernel.clock = w.kernel.clock + operations
  contents : w'.kernel.contents = w.kernel.contents
  undefinedByte : w'.undefinedByte = w.undefinedByte
  moved : ∀ h d, Held w fd h d → Held w' fd h { d with offset := d.offset + k }
  others : ∀ fd' h' d', Held w fd' h' d' → w.records fd ≠ some h' → Held w' fd' h' d'

theorem Took.refl (fd : Stream) (w : World) : Took fd 0 0 w w :=
  ⟨rfl, rfl, rfl, rfl, fun _ _ hw => hw, fun _ _ _ hw _ => hw⟩

theorem Took.trans {w' w'' : World} {a b k l : Nat} (hw : Held w fd h d) (ht : Took fd a k w w')
    (ht' : Took fd b l w' w'') : Took fd (a + b) (k + l) w w'' := by
  constructor
  · rw [ht'.policy, ht.policy]
  · rw [ht'.clock, ht.clock, Nat.add_assoc]
  · rw [ht'.contents, ht.contents]
  · rw [ht'.undefinedByte, ht.undefinedByte]
  · intro h₁ d₁ hw₁
    have hmoved := ht'.moved h₁ _ (ht.moved h₁ d₁ hw₁)
    rwa [Nat.add_assoc] at hmoved
  · intro fd' h' d' hw' hne
    apply ht'.others fd' h' d' (ht.others fd' h' d' hw' hne)
    rw [(ht.moved h d hw).record, ← hw.record]
    exact hne

theorem Took.looked (fd : Stream) (w : World) : Took fd 0 0 w (Stdio.looked w) := by
  constructor
  · rw [looked_kernel]
  · rw [looked_kernel, Nat.add_zero]
  · rw [looked_kernel]
  · rw [looked_undefinedByte]
  · exact fun _ _ hw => hw.looked
  · exact fun _ _ _ hw _ => hw.looked

theorem Took.memory {w' : World} {a k : Nat} (ht : Took fd a k w w') (m : Mem) :
    Took fd a k w { w' with mem := m } := by
  refine ⟨ht.policy, ht.clock, ht.contents, ht.undefinedByte, ?_, ?_⟩
  · exact fun h d hw => (ht.moved h d hw).memory m
  · exact fun fd' h' d' hw hne => (ht.others fd' h' d' hw hne).memory m

theorem Took.beside {w' : World} {a k : Nat} (ht : Took fd a k w w') : Beside fd w w' := by
  have hreliable : (∀ n, w.kernel.policy.fails n = false) →
      ∀ n, w'.kernel.policy.fails n = false := by
    rw [ht.policy]
    exact id
  constructor
  · exact fun h d hopen =>
      ⟨d.offset + k, ht.moved h d hopen.held, hreliable hopen.reliable⟩
  · intro h d _ i _
    rw [ht.contents]
  · exact fun fd' h' d' hopen hne =>
      ⟨ht.others fd' h' d' hopen.held hne, hreliable hopen.reliable⟩

/-- What is left to read of a stream from which bytes were taken. -/
theorem Took.readable {w' : World} {a k : Nat} {rest : List UInt8} (ht : Took fd a k w w')
    (hw : Readable w fd rest) : Readable w' fd (rest.drop k) := by
  obtain ⟨h, d, hheld, hd, rfl⟩ := hw
  exact ⟨h, _, ht.moved h d hheld, hd, by rw [ht.contents, List.drop_drop]⟩

theorem Took.source {w' : World} {a k : Nat} {rest : List UInt8} (ht : Took fd a k w w')
    (hw : Source w fd rest) : Source w' fd (rest.drop k) := by
  obtain ⟨h, d, hopen, hd, rfl⟩ := hw
  refine ⟨h, { d with offset := d.offset + k }, ⟨ht.moved h d hopen.held, ?_⟩, hd, ?_⟩
  · rw [ht.policy]
    exact hopen.reliable
  · rw [ht.contents, List.drop_drop]

theorem Source.readable {rest : List UInt8} (hw : Source w fd rest) : Readable w fd rest := by
  obtain ⟨h, d, hopen, hd, hrest⟩ := hw
  exact ⟨h, d, hopen.held, hd, hrest⟩

theorem Source.working {rest : List UInt8} (hw : Source w fd rest) (n : Nat) : Working w n := by
  obtain ⟨h, d, hopen, _⟩ := hw
  exact fun j _ => hopen.reliable _

theorem Took.trans_readable {w' w'' : World} {a b k l : Nat} {rest : List UInt8}
    (hw : Readable w fd rest) (ht : Took fd a k w w') (ht' : Took fd b l w' w'') :
    Took fd (a + b) (k + l) w w'' := by
  obtain ⟨h, d, hheld, _⟩ := hw
  exact ht.trans hheld ht'

/-- The operations after the first ones. -/
theorem Took.working {w' : World} {a k n : Nat} (ht : Took fd a k w w') (hw : Working w (a + n)) :
    Working w' n := by
  intro j hj
  rw [ht.policy, ht.clock, Nat.add_assoc]
  exact hw (a + j) (by omega)

theorem Readable.looked {rest : List UInt8} (hw : Readable w fd rest) :
    Readable (Stdio.looked w) fd rest := by
  obtain ⟨h, d, hheld, hd, hrest⟩ := hw
  exact ⟨h, d, hheld.looked, hd, by rw [looked_kernel]; exact hrest⟩

/-- Reading one byte takes the next byte of the stream, if one is left. -/
theorem Readable.read_one {rest : List UInt8} (hread : Readable w fd rest) (hok : Working w 1) :
    ∃ w', (File.read fd 1).run w = .ok (rest.take 1, true) w' ∧ w'.mem = w.mem ∧
      Took fd 1 (rest.take 1).length w w' := by
  obtain ⟨h, d, hw, hd, rfl⟩ := hread
  have hrun := hw.apply (·.read · 1)
  rw [Kernel.read_one hw.described hd (hok 0 Nat.one_pos)] at hrun
  have htable := Kernel.seek_table w.kernel hw.described
    (d.offset + (((w.kernel.contents d.inode).drop d.offset).take 1).length)
  refine ⟨_, hrun, rfl, ?_⟩
  constructor
  · simp [Kernel.tick]
  · simp [Kernel.tick]
  · simp [Kernel.tick]
  · rfl
  · intro h₁ d₁ hw₁
    obtain ⟨rfl, rfl⟩ := hw.unique hw₁
    exact hw.moved rfl rfl htable
  · intro fd' h' d' hw' hne
    refine ⟨hw'.record, hw'.own, ?_⟩
    have hother : h' ≠ h := by
      rintro rfl
      exact hne hw.record
    exact (congrFun htable h').trans ((update_of_ne hother _ _).trans hw'.described)

end Streams

/-- A process whose streams have been initialised, with the given input. -/
def readyWorld (mem : Mem) (input : List UInt8) : World :=
  { startWorld mem (Kernel.started .lowest input) with
    resolved := 1
    records := initialised fun _ => none }

theorem ready_stdin (mem : Mem) (input : List UInt8) :
    Open (readyWorld mem input) .stdin_file 0 ⟨0, 0, true, false⟩ :=
  ⟨⟨rfl, fun _ hn => ⟨Option.some.inj hn, (by decide : (1 : UInt8) ≠ 0)⟩, rfl⟩, fun _ => rfl⟩

theorem ready_stdout (mem : Mem) (input : List UInt8) :
    Open (readyWorld mem input) .stdout_file 1 ⟨1, 0, false, true⟩ :=
  ⟨⟨rfl, fun _ hn => ⟨Option.some.inj hn, (by decide : (1 : UInt8) ≠ 0)⟩, rfl⟩, fun _ => rfl⟩

theorem ready_source (mem : Mem) (input : List UInt8) :
    Source (readyWorld mem input) .stdin_file input :=
  ⟨0, _, ready_stdin mem input, rfl, rfl⟩

theorem ready_sink (mem : Mem) (input : List UInt8) :
    Sink (readyWorld mem input) .stdout_file [] 0 :=
  ⟨1, _, ready_stdout mem input, rfl, rfl, rfl⟩

theorem ready_separate (mem : Mem) (input : List UInt8) :
    Separate (readyWorld mem input) .stdin_file .stdout_file :=
  ⟨0, _, 1, _, ready_stdin mem input, ready_stdout mem input, by decide, by decide⟩

end Stdio
