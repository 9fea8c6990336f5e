import Zligc.Stdio

/-!
# What every call of stdio.zig does

A call looks a handle up, checks its arguments, works on the File behind the
handle, and moves bytes between memory and the File. A discipline is a family of
conditions on the state between, during and after calls that these steps keep;
then every call keeps it. Only fopen, freopen and fclose change File records
themselves and are left to each discipline.
-/
namespace Stdio

open Effect Zig Zligc OsFile

/-- The descriptor that initStreams gives a standard stream. -/
def standard : Stream → Option Int32
  | .stdin_file => some 0
  | .stdout_file => some 1
  | .stderr_file => some 2
  | .created _ => none

/-- The File records after initStreams. -/
def initialised (records : Stream → Option Int32) (fd : Stream) : Option Int32 :=
  match standard fd with
  | some h => some h
  | none => records fd

/-- The state after the lookup of a handle. The exchange succeeds in the first lookup and fails in
every later one, and it is where it fails that the streams are initialised. -/
def looked (w : World) : World :=
  if w.resolved = 0 then { w with resolved := 1, events := w.events ++ [.lookup] }
  else
    { w with
      records := initialised w.records
      events := w.events ++ [.lookup, .initStreams] }

theorem initStreams_run (w : World) :
    initStreams.run w = .ok () { w with
      records := initialised w.records
      events := w.events ++ [.initStreams] } := by
  have hrec : Function.update (Function.update (Function.update w.records .stdin_file (some 0))
      .stdout_file (some 1)) .stderr_file (some 2) = initialised w.records := by
    funext fd
    cases fd <;> simp [initialised, standard, Function.update]
  simp [initStreams, note, File.assign, hrec]

theorem lookup_run (handle : Option Stream) (w : World) :
    (readOpaqueHandle handle).run w = (unwrap handle).run (looked w) := by
  unfold looked
  split
  · rename_i h
    simp [readOpaqueHandle, note, cmpxchgStrong, h]
  · rename_i h
    have hinit := initStreams_run { w with events := w.events ++ [.lookup] }
    simp [readOpaqueHandle, note, cmpxchgStrong, h, hinit]

theorem lookup_some (fd : Stream) (w : World) :
    (readOpaqueHandle (some fd)).run w = .ok fd (looked w) := lookup_run (some fd) w

theorem lookup_none (w : World) :
    (readOpaqueHandle none).run w = .error .nullUnwrap (looked w) := lookup_run none w

theorem apply_run {β : Type} (fd : Stream) (f : Kernel → Int32 → Kernel × β) (w : World) :
    (File.apply fd f).run w =
      .ok (f w.kernel ((w.records fd).getD w.undefinedHandle)).2 { w with
        kernel := (f w.kernel ((w.records fd).getD w.undefinedHandle)).1
        events := w.events ++ [.dereference fd (w.records fd).isSome] } := rfl

theorem onPaths_run {β : Type} (ps : List (List UInt8)) (f : Kernel → Kernel × β) (failed : β)
    (w : World) :
    (File.onPaths ps f failed).run w =
      match w.fixed.alloc (w.kernel.policy.scratchFor ps) 1 with
      | none => .ok failed w
      | some (_, fixed) => .ok (f w.kernel).2 { w with fixed, kernel := (f w.kernel).1 } := by
  cases h : w.fixed.alloc (w.kernel.policy.scratchFor ps) 1 with
  | none => simp [File.onPaths, reserve, h]
  | some r => simp [File.onPaths, reserve, h]

theorem assign_run (fd : Stream) (file : Option Int32) (w : World) :
    (File.assign fd file).run w =
      .ok () { w with records := Function.update w.records fd file } := rfl

/-- What a descriptor is open on and how. -/
def access (d : Description) : Nat × Bool × Bool := (d.inode, d.readable, d.writable)

/-- The descriptors of `k'` are those of `k`, up to their offsets. -/
def SameFiles (k k' : Kernel) : Prop :=
  k'.policy = k.policy ∧ ∀ fd, (k'.table fd).map access = (k.table fd).map access

theorem sameFiles_refl (k : Kernel) : SameFiles k k := ⟨rfl, fun _ => rfl⟩

theorem sameFiles_seek (k : Kernel) (fd : Int32) (offset : Nat) :
    SameFiles k (k.seek fd offset) := by
  unfold Kernel.seek
  split
  · exact sameFiles_refl k
  · rename_i d h
    refine ⟨rfl, fun fd' => ?_⟩
    by_cases hfd : fd' = fd
    · subst hfd
      simp [Kernel.describe, h, access]
    · simp [Kernel.describe, hfd]

theorem sameFiles_read (k : Kernel) (fd : Int32) (n : Nat) : SameFiles k (k.read fd n).1 := by
  unfold Kernel.read
  split
  · exact sameFiles_refl k
  · split
    · exact sameFiles_seek k fd _
    · exact sameFiles_refl k

theorem sameFiles_write (k : Kernel) (fd : Int32) (bytes : List UInt8) :
    SameFiles k (k.write fd bytes).1 := by
  unfold Kernel.write
  split
  · exact sameFiles_refl k
  · split
    · exact sameFiles_seek _ fd _
    · exact sameFiles_refl k

theorem sameFiles_seekTo (k : Kernel) (fd : Int32) (offset : Nat) :
    SameFiles k (k.seekTo fd offset).1 := by
  unfold Kernel.seekTo
  split
  · exact sameFiles_seek k fd _
  · exact sameFiles_refl k

theorem sameFiles_seekForward (k : Kernel) (fd : Int32) (amount : Int) :
    SameFiles k (k.seekForward fd amount).1 := by
  unfold Kernel.seekForward
  split
  · exact sameFiles_refl k
  · split
    · exact sameFiles_seek k fd _
    · exact sameFiles_refl k

theorem sameFiles_getPos (k : Kernel) (fd : Int32) : SameFiles k (k.getPos fd).1 := by
  unfold Kernel.getPos
  split <;> exact sameFiles_refl k

theorem sameFiles_deleteFile (k : Kernel) (path : List UInt8) :
    SameFiles k (k.deleteFile path).1 := by
  unfold Kernel.deleteFile
  split <;> exact sameFiles_refl k

theorem sameFiles_rename (k : Kernel) (old new : List UInt8) :
    SameFiles k (k.rename old new).1 := by
  unfold Kernel.rename
  split
  · exact sameFiles_refl k
  · split
    · exact sameFiles_refl k
    · split <;> exact sameFiles_refl k

/-- Conditions that hold between calls (`G`), from the lookup of a handle on (`P`), after the
first use of the File behind it (`U`), and when the program has stopped (`E`). -/
structure Discipline (G : World → Prop) (P U : Stream → World → Prop) (E : World → Prop) :
    Prop where
  lookup : ∀ handle, Triple G (readOpaqueHandle handle) P E
  use : ∀ {β : Type} (fd : Stream) (f : Kernel → Int32 → Kernel × β),
    (∀ k h, SameFiles k (f k h).1) → Triple (P fd) (File.apply fd f) (fun _ => U fd) E
  paths : ∀ {β : Type} (ps : List (List UInt8)) (f : Kernel → Kernel × β) (failed : β),
    (∀ k, SameFiles k (f k).1) → Triple G (File.onPaths ps f failed) (fun _ => G) E
  again : ∀ fd w, U fd w → P fd w
  between : ∀ fd w, U fd w → G w
  memory : ∀ w m, G w → G { w with mem := m }
  pending_memory : ∀ fd w m, P fd w → P fd { w with mem := m }
  used_memory : ∀ fd w m, U fd w → U fd { w with mem := m }
  stopped : ∀ w, G w → E w
  pending_stopped : ∀ fd w, P fd w → E w

section Steps

variable {α : Type} {I E : World → Prop}

/-- A check that does not change the state. -/
theorem triple_check {x : Run World α} (h : Moves Eq x) (hE : ∀ w, I w → E w) :
    Triple I x (fun _ => I) E :=
  triple_moves h (fun _ _ _ hs he => he ▸ hs) fun _ _ hs he => he ▸ hE _ hs

theorem triple_get (h : ∀ w, I w → E w) : Triple I (get : Run World World) (fun _ => I) E :=
  triple_check (fun _ => rfl) h

theorem triple_onMem (x : Run Mem α) (hI : ∀ w m, I w → I { w with mem := m })
    (hE : ∀ w, I w → E w) : Triple I (onMem x) (fun _ => I) E := by
  intro w hw
  rw [run_onMem]
  cases x.run w.mem with
  | ok a m => exact hI w m hw
  | error e m => exact hE _ (hI w m hw)

end Steps

namespace Discipline

variable {G : World → Prop} {P U : Stream → World → Prop} {E : World → Prop}
  (D : Discipline G P U E)
include D

theorem used_stopped (fd : Stream) (w : World) (h : U fd w) : E w :=
  D.stopped w (D.between fd w h)

theorem fgetc (stream : Option Stream) : Triple G (Stdio.fgetc stream) (fun _ => G) E := by
  apply triple_bind (D.lookup stream)
  intro fd
  apply triple_bind (D.use fd _ fun k h => sameFiles_read k h 1)
  intro r
  obtain ⟨got, success⟩ := r
  cases success with
  | true => exact triple_bind (triple_get (D.used_stopped fd)) fun _ => triple_pure (D.between fd)
  | false => exact triple_pure (D.between fd)

theorem fputc (ch : Int32) (stream : Option Stream) :
    Triple G (Stdio.fputc ch stream) (fun _ => G) E := by
  apply triple_bind (D.lookup stream)
  intro fd
  apply triple_bind (triple_check (castU8_moves ch) (D.pending_stopped fd))
  intro b
  apply triple_bind (D.use fd _ fun k h => sameFiles_write k h [b])
  intro success
  cases success with
  | true => exact triple_pure (D.between fd)
  | false => exact triple_pure (D.between fd)

theorem fputs (str : Option Nat) (stream : Option Stream) :
    Triple G (Stdio.fputs str stream) (fun _ => G) E := by
  apply triple_bind (D.lookup stream)
  intro fd
  apply triple_bind (triple_check (unwrap_moves str) (D.pending_stopped fd))
  intro p
  apply triple_bind (triple_onMem _ (D.pending_memory fd) (D.pending_stopped fd))
  intro s
  apply triple_bind (D.use fd _ fun k h => sameFiles_write k h s)
  intro success
  cases success with
  | false => exact triple_pure (D.between fd)
  | true =>
    refine triple_bind (triple_conseq (D.use fd _ fun k h => sameFiles_write k h [10])
      (D.again fd) fun _ _ h => h) fun success => ?_
    cases success with
    | false => exact triple_pure (D.between fd)
    | true => exact triple_pure (D.between fd)

theorem fwriteFrom (bytes : Nat → Run Mem (List UInt8)) (size count : Nat)
    (stream : Option Stream) :
    Triple G (Stdio.fwriteFrom bytes size count stream) (fun _ => G) E := by
  apply triple_bind (D.lookup stream)
  intro fd
  apply triple_bind (triple_check (mul_moves count size) (D.pending_stopped fd))
  intro n
  apply triple_bind (triple_onMem _ (D.pending_memory fd) (D.pending_stopped fd))
  intro b
  apply triple_bind (D.use fd _ fun k h => sameFiles_write k h b)
  intro success
  cases success with
  | true => exact triple_pure (D.between fd)
  | false => exact triple_pure (D.between fd)

theorem fread (buffer size count : Nat) (stream : Option Stream) :
    Triple G (Stdio.fread buffer size count stream) (fun _ => G) E := by
  apply triple_bind (D.lookup stream)
  intro fd
  apply triple_bind (triple_check (mul_moves count size) (D.pending_stopped fd))
  intro n
  apply triple_bind (D.use fd _ fun k h => sameFiles_read k h n)
  intro r
  obtain ⟨got, success⟩ := r
  exact triple_bind (triple_onMem _ (D.used_memory fd) (D.used_stopped fd)) fun _ =>
    triple_pure (D.between fd)

theorem fseek (stream : Option Stream) (offset : Int64) (origin : Int32) :
    Triple G (Stdio.fseek stream offset origin) (fun _ => G) E := by
  apply triple_bind (D.lookup stream)
  intro fd
  split
  · apply triple_bind (triple_check (castUsize_moves _) (D.pending_stopped fd))
    intro n
    apply triple_bind (D.use fd _ fun k h => sameFiles_seekTo k h n)
    intro success
    cases success with
    | true => exact triple_pure (D.between fd)
    | false => exact triple_pure (D.between fd)
  · split
    · apply triple_bind (D.use fd _ fun k h => sameFiles_seekForward k h _)
      intro success
      cases success with
      | true => exact triple_pure (D.between fd)
      | false => exact triple_pure (D.between fd)
    · split
      · exact triple_throw (D.pending_stopped fd)
      · exact triple_throw (D.pending_stopped fd)

theorem ftell (stream : Option Stream) : Triple G (Stdio.ftell stream) (fun _ => G) E := by
  apply triple_bind (D.lookup stream)
  intro fd
  apply triple_bind (D.use fd _ fun k h => sameFiles_getPos k h)
  intro pos
  cases pos with
  | none => exact triple_pure (D.between fd)
  | some pos =>
    exact triple_conseq (triple_check (castLong_moves pos) D.stopped) (D.between fd) fun _ _ h => h

theorem rewind (stream : Option Stream) : Triple G (Stdio.rewind stream) (fun _ => G) E := by
  apply triple_bind (D.lookup stream)
  intro fd
  apply triple_bind (D.use fd _ fun k h => sameFiles_seekTo k h 0)
  intro success
  cases success with
  | true => exact triple_pure (D.between fd)
  | false => exact triple_throw (D.used_stopped fd)

theorem loop {α β : Type} {body : β → Run World (Turn β α)}
    (h : ∀ b, Triple G (body b) (fun _ => G) E) (b : β) :
    Triple G (while_ b body) (fun _ => G) E := by
  refine triple_loop (I := fun _ => G) (fun b => ?_) (fun _ => D.stopped) _ b
  refine triple_conseq (h b) (fun _ h => h) fun turn w hw => ?_
  cases turn <;> exact hw

/-- fgets looks the handle up again for every byte. -/
theorem fgets (s : Nat) (size : Int32) (stream : Option Stream) :
    Triple G (Stdio.fgets s size stream) (fun _ => G) E := by
  have hround : ∀ i, Triple G (fgetsRound s size stream i) (fun _ => G) E := by
    intro i
    apply triple_bind (triple_check (castUsize_moves _) D.stopped)
    intro n
    apply triple_bind (triple_check (sub_moves n 1) D.stopped)
    intro limit
    split
    · apply triple_bind (D.fgetc stream)
      intro ch
      have hstore : ∀ f : Nat → Turn Nat Nat, Triple G (do
          onMem (store s i (← castU8 ch))
          return f (← add i 1) : Run World (Turn Nat Nat)) (fun _ => G) E := by
        intro f
        apply triple_bind (triple_check (castU8_moves ch) D.stopped)
        intro b
        apply triple_bind (triple_onMem _ D.memory D.stopped)
        intro _
        exact triple_bind (triple_check (add_moves i 1) D.stopped) fun _ => triple_pure fun _ h => h
      split
      · exact triple_pure fun _ h => h
      · split
        · exact hstore .done
        · exact hstore .next
    · exact triple_pure fun _ h => h
  exact triple_bind (D.loop hround 0) fun i =>
    triple_bind (triple_onMem _ D.memory D.stopped) fun _ => triple_pure fun _ h => h

theorem test_fprintf (stream : Option Stream) (fmt : Nat) :
    Triple G (Stdio.test_fprintf stream fmt) (fun _ => G) E := by
  refine triple_bind (D.loop (fun i => ?_) 0) fun _ => triple_pure fun _ h => h
  apply triple_bind (triple_onMem _ D.memory D.stopped)
  intro c
  split
  · apply triple_bind (triple_onMem _ D.memory D.stopped)
    intro ch
    apply triple_bind (triple_check (add_moves i 1) D.stopped)
    intro i
    split
    · exact triple_bind (D.fputc _ stream) fun _ => triple_pure fun _ h => h
    · apply triple_bind (triple_onMem _ D.memory D.stopped)
      intro ch
      apply triple_bind (triple_check (add_moves i 1) D.stopped)
      intro i
      split
      · exact triple_pure fun _ h => h
      · split
        · exact triple_bind (D.fputc _ stream) fun _ => triple_pure fun _ h => h
        · apply triple_bind (triple_get D.stopped)
          intro w
          exact triple_bind (D.fwriteFrom _ _ _ stream) fun _ => triple_pure fun _ h => h
  · exact triple_pure fun _ h => h

theorem remove (pathname : Option Nat) : Triple G (Stdio.remove pathname) (fun _ => G) E := by
  apply triple_bind (triple_check (unwrap_moves pathname) D.stopped)
  intro p
  apply triple_bind (triple_onMem _ D.memory D.stopped)
  intro path
  apply triple_bind (D.paths _ _ _ fun k => sameFiles_deleteFile k path)
  intro success
  cases success with
  | true => exact triple_pure fun _ h => h
  | false => exact triple_pure fun _ h => h

theorem rename (old_filename new_filename : Option Nat) :
    Triple G (Stdio.rename old_filename new_filename) (fun _ => G) E := by
  apply triple_bind (triple_check (unwrap_moves old_filename) D.stopped)
  intro p
  apply triple_bind (triple_onMem _ D.memory D.stopped)
  intro old
  apply triple_bind (triple_check (unwrap_moves new_filename) D.stopped)
  intro q
  apply triple_bind (triple_onMem _ D.memory D.stopped)
  intro new
  apply triple_bind (D.paths _ _ _ fun k => sameFiles_rename k old new)
  intro success
  cases success with
  | true => exact triple_pure fun _ h => h
  | false => exact triple_pure fun _ h => h

end Discipline

/-- The calls of stdio.zig. -/
inductive Call where
  | fopen (filename mode : Nat)
  | fopen64 (filename mode : Nat)
  | freopen (filename : Option Nat) (mode : Nat) (stream : Option Stream)
  | freopen64 (filename : Option Nat) (mode : Nat) (stream : Option Stream)
  | fclose (stream : Option Stream)
  | rename (old_filename new_filename : Option Nat)
  | remove (pathname : Option Nat)
  | fseek (stream : Option Stream) (offset : Int64) (origin : Int32)
  | ftell (stream : Option Stream)
  | rewind (stream : Option Stream)
  | fread (buffer size count : Nat) (stream : Option Stream)
  | fwrite (buffer size count : Nat) (stream : Option Stream)
  | fgetc (stream : Option Stream)
  | getc (stream : Option Stream)
  | _IO_getc (stream : Option Stream)
  | getchar
  | fputc (ch : Int32) (stream : Option Stream)
  | putc (ch : Int32) (stream : Option Stream)
  | putchar (ch : Int32)
  | fputs (str : Option Nat) (stream : Option Stream)
  | puts (str : Nat)
  | fgets (s : Nat) (size : Int32) (stream : Option Stream)
  | test_fprintf (stream : Option Stream) (fmt : Nat)
  | clearerr (stream : Option Stream)
  | feof (stream : Option Stream)
  | ferror (stream : Option Stream)
  | fflush (stream : Option Stream)
  | setvbuf (stream : Option Stream) (buf : Nat) (mode : Int32) (size : Nat)
  deriving DecidableEq, Repr

/-- Perform a call for its effect and for the stream it may return. -/
def Call.run : Call → Run World (Option Stream)
  | .fopen filename mode => Stdio.fopen filename mode
  | .fopen64 filename mode => Stdio.fopen64 filename mode
  | .freopen filename mode stream => Stdio.freopen filename mode stream
  | .freopen64 filename mode stream => Stdio.freopen64 filename mode stream
  | .fclose stream => (fun _ => none) <$> Stdio.fclose stream
  | .rename old_filename new_filename => (fun _ => none) <$> Stdio.rename old_filename new_filename
  | .remove pathname => (fun _ => none) <$> Stdio.remove pathname
  | .fseek stream offset origin => (fun _ => none) <$> Stdio.fseek stream offset origin
  | .ftell stream => (fun _ => none) <$> Stdio.ftell stream
  | .rewind stream => (fun _ => none) <$> Stdio.rewind stream
  | .fread buffer size count stream => (fun _ => none) <$> Stdio.fread buffer size count stream
  | .fwrite buffer size count stream => (fun _ => none) <$> Stdio.fwrite buffer size count stream
  | .fgetc stream => (fun _ => none) <$> Stdio.fgetc stream
  | .getc stream => (fun _ => none) <$> Stdio.getc stream
  | ._IO_getc stream => (fun _ => none) <$> Stdio._IO_getc stream
  | .getchar => (fun _ => none) <$> Stdio.getchar
  | .fputc ch stream => (fun _ => none) <$> Stdio.fputc ch stream
  | .putc ch stream => (fun _ => none) <$> Stdio.putc ch stream
  | .putchar ch => (fun _ => none) <$> Stdio.putchar ch
  | .fputs str stream => (fun _ => none) <$> Stdio.fputs str stream
  | .puts str => (fun _ => none) <$> Stdio.puts str
  | .fgets s size stream => (fun _ => none) <$> Stdio.fgets s size stream
  | .test_fprintf stream fmt => (fun _ => none) <$> Stdio.test_fprintf stream fmt
  | .clearerr stream => (fun _ => none) <$> Stdio.clearerr stream
  | .feof stream => (fun _ => none) <$> Stdio.feof stream
  | .ferror stream => (fun _ => none) <$> Stdio.ferror stream
  | .fflush stream => (fun _ => none) <$> Stdio.fflush stream
  | .setvbuf stream buf mode size => (fun _ => none) <$> Stdio.setvbuf stream buf mode size

/-- The calls that change File records on purpose. -/
def Call.Opens : Call → Prop
  | .fopen _ _ | .fopen64 _ _ | .freopen _ _ _ | .freopen64 _ _ _ | .fclose _ => True
  | _ => False

theorem triple_map {α β : Type} {I E : World → Prop} {x : Run World α} (f : α → β)
    (h : Triple I x (fun _ => I) E) : Triple I (f <$> x) (fun _ => I) E := by
  rw [map_eq_pure_bind]
  exact triple_bind h fun _ => triple_pure fun _ hw => hw

/-- A call that is none of fopen, freopen and fclose keeps every discipline. -/
theorem Discipline.call {G : World → Prop} {P U : Stream → World → Prop} {E : World → Prop}
    (D : Discipline G P U E) (c : Call) (hc : ¬ c.Opens) : Triple G c.run (fun _ => G) E := by
  cases c with
  | fopen | fopen64 | freopen | freopen64 | fclose => exact absurd trivial hc
  | rename old new => exact triple_map _ (D.rename old new)
  | remove path => exact triple_map _ (D.remove path)
  | fseek stream offset origin => exact triple_map _ (D.fseek stream offset origin)
  | ftell stream => exact triple_map _ (D.ftell stream)
  | rewind stream => exact triple_map _ (D.rewind stream)
  | fread buffer size count stream => exact triple_map _ (D.fread buffer size count stream)
  | fwrite buffer size count stream => exact triple_map _ (D.fwriteFrom _ size count stream)
  | fgetc stream | getc stream | _IO_getc stream => exact triple_map _ (D.fgetc stream)
  | getchar => exact triple_map _ (D.fgetc _)
  | fputc ch stream | putc ch stream => exact triple_map _ (D.fputc ch stream)
  | putchar ch => exact triple_map _ (D.fputc ch _)
  | fputs str stream => exact triple_map _ (D.fputs str stream)
  | puts str => exact triple_map _ (D.fputs _ _)
  | fgets s size stream => exact triple_map _ (D.fgets s size stream)
  | test_fprintf stream fmt => exact triple_map _ (D.test_fprintf stream fmt)
  | clearerr | feof | ferror | fflush | setvbuf => exact triple_map _ (triple_pure fun _ hw => hw)

/-- Perform calls in order, up to the first one that faults. -/
def runCalls : List Call → Run World Unit
  | [] => pure ()
  | c :: calls => do
    let _ ← c.run
    runCalls calls

theorem triple_runCalls {G E : World → Prop} (calls : List Call)
    (h : ∀ c, c ∈ calls → Triple G c.run (fun _ => G) E) :
    Triple G (runCalls calls) (fun _ => G) E := by
  induction calls with
  | nil => exact triple_pure fun _ hw => hw
  | cons c calls ih =>
    apply triple_bind (h c List.mem_cons_self)
    intro _
    exact ih fun d hd => h d (List.mem_cons_of_mem c hd)

end Stdio
