import Zligc.StdioTurns
import Zligc.StringStore

/-!
# Programs on strings and streams

A program that works with string.zig and stdio.zig has strings in its buffers and files behind its
streams, and nothing else decides what a call does and returns. fputs and fwrite copy a string to a
file; fgets and fread splice what a file gives into a string.
-/
namespace TextProgram

open Effect CellMemory Zig Zligc OsFile Stdio RandomAccess Splice Function
open StringStore (Place addr stringAt)

variable {ι π π' : Type}

/-- The calls for a stream that write to no buffer. -/
inductive Use (ι : Type) where
  | fgetc
  | fputc (ch : UInt8)
  | fputs (str : Place ι)
  | fwrite (buffer : Place ι) (size count : Nat)
  | fseek (offset : Int64) (origin : Int32)
  | rewind
  | ftell
  deriving DecidableEq, Repr

inductive Call (ι : Type) where
  | string (c : StringStore.Call ι)
  | use (u : Use ι) (stream : Stream)
  | fgets (s : Place ι) (size : Int32) (stream : Stream)
  | fread (buffer : Place ι) (size count : Nat) (stream : Stream)
  deriving DecidableEq, Repr

/-- What a call returns, with pointers of the type `π`. -/
inductive Answer (π : Type) where
  | string (a : StringStore.Answer π)
  | number (n : Int)
  deriving DecidableEq, Repr

def Answer.map (f : π → π') : Answer π → Answer π'
  | .string a => .string (a.map f)
  | .number n => .number n

def Use.access (d : ι → Nat) : Use ι → Access
  | .fgetc => .fgetc
  | .fputc ch => .fputc (widen ch)
  | .fputs str => .fputs (addr d str)
  | .fwrite buffer size count => .fwrite (addr d buffer) size count
  | .fseek offset origin => .fseek offset origin
  | .rewind => .rewind
  | .ftell => .ftell

def Call.run (d : ι → Nat) : Call ι → Run World (Answer Nat)
  | .string c => .string <$> onMem (c.run d)
  | .use u stream => (fun r => .number r.1) <$> (u.access d).run stream
  | .fgets s size stream =>
    (fun p => .string (.pointer p)) <$> Stdio.fgets (addr d s) size (some stream)
  | .fread buffer size count stream =>
    (fun n : Nat => .number n) <$> Stdio.fread (addr d buffer) size count (some stream)

/-- Perform the calls in order and collect what they return. -/
def runCalls (d : ι → Nat) : List (Call ι) → Run World (List (Answer Nat))
  | [] => pure []
  | c :: calls => do
    let r ← c.run d
    let rs ← runCalls d calls
    return r :: rs

/-- The strings in the buffers and the files behind the streams. -/
structure Store (ι : Type) where
  strings : ι → List UInt8
  files : Stream → Cursor

section Meaning

variable (undefinedByte : UInt8) (st : Store ι)

/-- The line that fgets takes from a stream. -/
def line (size : Int32) (stream : Stream) : List UInt8 :=
  lineOf undefinedByte ((st.files stream).content.drop (st.files stream).offset)
    (size.toInt.toNat - 1)

/-- The bytes that a stream gives to a request for `n`. -/
def given (n : Nat) (stream : Stream) : List UInt8 :=
  (Reply.read (serve (.read n) (st.files stream)).1).1

/-- What a use of a stream asks of the file behind it. -/
def Use.request : Use ι → Request
  | .fgetc => .read 1
  | .fputc ch => .write [ch]
  | .fputs str => .write (stringAt st.strings str ++ [10])
  | .fwrite buffer size count => .write ((stringAt st.strings buffer ++ [0]).take (size * count))
  | .fseek offset origin => if origin = 0 then .seek offset.toInt.toNat else .skip offset.toInt
  | .rewind => .seek 0
  | .ftell => .tell

/-- What is returned for a reply. At the end of the file fgetc returns the undefined byte. -/
def Use.answer : Use ι → Reply → Int
  | .fgetc, .got bytes => (bytes.headD undefinedByte).toNat
  | .fwrite _ size count, .done => size * count
  | .fwrite _ _ _, _ => 0
  | .fputc _, .done | .fputs _, .done | .fseek _ _, .done | .rewind, .done => 0
  | .ftell, .told p => p
  | _, _ => -1

def Call.request : Call ι → Option (Stream × Request)
  | .string _ => none
  | .use u stream => some (stream, u.request st)
  | .fgets _ size stream => some (stream, .read (line undefinedByte st size stream).length)
  | .fread _ size count stream => some (stream, .read (size * count))

/-- The place in a buffer where a call writes, and the bytes. -/
def Call.edit : Call ι → Option (Place ι × List UInt8)
  | .string c => c.edit st.strings
  | .use _ _ => none
  | .fgets s size stream => some (s, line undefinedByte st size stream ++ [0])
  | .fread buffer size count stream => some (buffer, given st (size * count) stream)

def Call.answer : Call ι → Answer (Place ι)
  | .string c => .string (c.answer st.strings)
  | .use u stream => .number (u.answer undefinedByte (serve (u.request st) (st.files stream)).1)
  | .fgets s _ _ => .string (.pointer (some s))
  | .fread _ size count stream => .number (given st (size * count) stream).length

/-- The strings and the files after the call. -/
def Call.next [DecidableEq ι] (c : Call ι) : Store ι where
  strings := match c.edit undefinedByte st with
    | some (p, bytes) =>
      update st.strings p.buffer (splice (st.strings p.buffer) p.offset bytes)
    | none => st.strings
  files := match c.request undefinedByte st with
    | some (stream, q) => update st.files stream (serve q (st.files stream)).2
    | none => st.files

/-- The arguments of a use point into strings and have as many bytes there as they name. -/
def Use.Proper : Use ι → Prop
  | .fputs str => str.offset ≤ (st.strings str.buffer).length
  | .fwrite buffer size count => buffer.offset ≤ (st.strings buffer.buffer).length ∧
      size * count ≤ (stringAt st.strings buffer).length + 1
  | .fseek offset origin => (origin = 0 ∧ 0 ≤ offset.toInt) ∨ origin = 1
  | .fgetc | .fputc _ | .rewind | .ftell => True

def Call.Proper (size : ι → Nat) : Call ι → Prop
  | .string c => c.Allowed size st.strings
  | .use u _ => u.Proper st
  | .fgets s n stream =>
    0 < n.toInt ∧ s.offset + n.toInt.toNat ≤ size s.buffer ∧ (st.files stream).readable = true
  | .fread buffer n count _ => buffer.offset + n * count ≤ size buffer.buffer

/-- What the C interface asks of a call: its arguments are proper, what it writes to a buffer leaves
a string there, and it uses streams in `T` only. -/
structure Call.Allowed (size : ι → Nat) (T : Stream → Prop) (c : Call ι) : Prop where
  proper : c.Proper st size
  fits : ∀ p bytes, c.edit undefinedByte st = some (p, bytes) →
    Fits (size p.buffer) (st.strings p.buffer) p.offset bytes
  stream : ∀ fd q, c.request undefinedByte st = some (fd, q) → T fd ∧ Tellable q (st.files fd)

end Meaning

/-- Memory holds the strings, and the streams in `T` are open on the files. -/
structure Represents (d size : ι → Nat) (T : Stream → Prop) (undefinedByte : UInt8)
    (st : Store ι) (w : World) : Prop where
  strings : Family d size st.strings w.mem
  files : Shown T w.mem (fun _ => False) undefinedByte w st.files

section Uses

variable {d size : ι → Nat} {T : Stream → Prop} {undefinedByte : UInt8} {st : Store ι} {w : World}
  {u : Use ι} {fd : Stream}

/-- A use asks the request of the access that it is at the addresses of the buffers. -/
theorem use_asks (h : Family d size st.strings w.mem) (hu : u.Proper st) :
    (u.access d).Asks w.mem (fun _ => True) (u.request st) := by
  cases u with
  | fgetc => exact .fgetc
  | fputc ch =>
    have hlt := ch.toNat_lt
    have hch : 0 ≤ (widen ch).toInt ∧ (widen ch).toInt < 256 := by
      rw [widen_toInt]
      omega
    have hasks : (Access.fputc (widen ch)).Asks w.mem (fun _ => True) (.write [byte (widen ch)]) :=
      .fputc hch
    rwa [byte_widen] at hasks
  | fputs str => exact .fputs (h.suffix hu) fun _ _ => trivial
  | fwrite buffer size count =>
    have hholds := (h.suffix hu.1).bytes.take (size * count)
    exact .fwrite hholds (StringStore.counted_length hu.2) fun _ _ => trivial
  | fseek offset origin =>
    rw [Use.access, Use.request]
    rcases hu with ⟨rfl, hoffset⟩ | rfl
    · rw [if_pos rfl]
      exact .set hoffset
    · rw [if_neg (by decide)]
      exact .cur offset
  | rewind => exact .rewind
  | ftell => exact .ftell

theorem use_answer (d : ι → Nat) (u : Use ι) (r : Reply) :
    ((u.access d).answer undefinedByte r).1 = u.answer undefinedByte r := by
  cases u <;> cases r <;> rfl

/-- Memory in which everything is kept is the same. -/
theorem retained_eq {m m' : Mem} (h : Retains (fun _ => True) m m') : m' = m :=
  Memory.ext fun p => h.same p trivial

theorem use_run (h : Represents d size T undefinedByte st w) (hu : u.Proper st) (hfd : T fd)
    (htell : Tellable (u.request st) (st.files fd)) :
    ∃ w', ((Call.use u fd).run d).run w =
        .ok (.number (u.answer undefinedByte (serve (u.request st) (st.files fd)).1)) w' ∧
      w'.mem = w.mem ∧ Became w w' fd (serve (u.request st) (st.files fd)).2 := by
  obtain ⟨handle, desc, hopen, hcursor⟩ := h.files.shows fd hfd
  rw [← hcursor] at htell ⊢
  obtain ⟨w', hrun, hbecame, hretains⟩ :=
    access_performs hopen h.files.regular (use_asks h.strings hu) htell
  rw [h.files.undefinedByte] at hrun
  refine ⟨w', ?_, retained_eq hretains, hbecame⟩
  rw [← use_answer d]
  exact map_ok hrun _

/-- A read that took `k` bytes has moved the cursor by as many. -/
theorem took_became {handle : Int32} {desc : Description} {w' : World} {n k : Nat}
    (hopen : Open w fd handle desc) (ht : Took fd n k w w') :
    Became w w' fd { cursor w.kernel desc with offset := desc.offset + k } := by
  refine ⟨⟨handle, _, ⟨ht.moved handle desc hopen.held, ?_⟩, ?_⟩, ht.beside, ht.policy,
    ht.undefinedByte⟩
  · rw [ht.policy]
    exact hopen.reliable
  · rw [cursor, ht.contents]
    rfl

theorem fgets_run (h : Represents d size T undefinedByte st w) {s : Place ι} {n : Int32}
    (hproper : (Call.fgets s n fd).Proper st size) (hfd : T fd) :
    ∃ w', ((Call.fgets s n fd).run d).run w = .ok (.string (.pointer (some (addr d s)))) w' ∧
      w'.mem = write w.mem (addr d s) (line undefinedByte st n fd ++ [0]) ∧
      Became w w' fd
        (serve (.read (line undefinedByte st n fd).length) (st.files fd)).2 := by
  obtain ⟨hpos, hroom, hreadable⟩ := hproper
  obtain ⟨handle, desc, hopen, hcursor⟩ := h.files.shows fd hfd
  have hmap : Mapped w.mem (addr d s) n.toInt.toNat :=
    (h.strings.keeps s.buffer).mapped.part (Nat.le_add_right _ _) (by unfold addr; omega)
  have hline : lineOf w.undefinedByte ((w.kernel.contents desc.inode).drop desc.offset)
      (n.toInt.toNat - 1) = line undefinedByte st n fd := by
    rw [line, ← hcursor, h.files.undefinedByte]
    rfl
  have hread : Readable w fd ((w.kernel.contents desc.inode).drop desc.offset) :=
    ⟨handle, desc, hopen.held, by rw [← hcursor] at hreadable; exact hreadable, rfl⟩
  obtain ⟨w', hrun, hmem, htook⟩ :=
    fgets_takes n hread hpos (fun j _ => hopen.reliable _) hmap
  rw [hline] at hmem htook
  refine ⟨w', map_ok hrun _, hmem, ?_⟩
  have hbecame := took_became hopen htook
  rw [serve_read hreadable, ← hcursor]
  exact hbecame

theorem fread_run (h : Represents d size T undefinedByte st w) {buffer : Place ι} {n count : Nat}
    (hproper : (Call.fread buffer n count fd).Proper st size) (hfd : T fd) :
    ∃ w', ((Call.fread buffer n count fd).run d).run w =
        .ok (.number (given st (n * count) fd).length) w' ∧
      w'.mem = write w.mem (addr d buffer) (given st (n * count) fd) ∧
      Became w w' fd (serve (.read (n * count)) (st.files fd)).2 := by
  obtain ⟨handle, desc, hopen, hcursor⟩ := h.files.shows fd hfd
  have hroom : buffer.offset + n * count ≤ size buffer.buffer := hproper
  have hmap : Mapped w.mem (addr d buffer) (n * count) :=
    (h.strings.keeps buffer.buffer).mapped.part (Nat.le_add_right _ _) (by unfold addr; omega)
  obtain ⟨w', hrun, hmem, hbecame⟩ := fread_stores hopen h.files.regular hmap rfl
  rw [hcursor] at hrun hmem hbecame
  exact ⟨w', map_ok hrun _, hmem, hbecame⟩

end Uses

section Calls

variable {d size : ι → Nat} {T : Stream → Prop} {undefinedByte : UInt8} {st : Store ι}
  {w w' : World} {fd : Stream} {cur : Cursor}

/-- Streams do not depend on what memory holds. -/
theorem shown_memory {x : Stream → Cursor} (h : Shown T w.mem (fun _ => False) undefinedByte w x)
    (m : Mem) : Shown T m (fun _ => False) undefinedByte { w with mem := m } x where
  regular := h.regular
  retains := .refl _ m
  undefinedByte := h.undefinedByte
  shows fd hfd := by
    obtain ⟨handle, desc, hopen, hcursor⟩ := h.shows fd hfd
    exact ⟨handle, desc, hopen.memory _, hcursor⟩
  separate fd fd' hfd hfd' hne := by
    obtain ⟨k, e, k', e', hopen, hopen', hhandles, hfiles⟩ := h.separate fd fd' hfd hfd' hne
    exact ⟨k, e, k', e', hopen.memory _, hopen'.memory _, hhandles, hfiles⟩

/-- After the use of a stream its file is the one it became. -/
theorem Represents.used {S : ι → List UInt8} (h : Represents d size T undefinedByte st w)
    (hfd : T fd) (hb : Became w w' fd cur)
    (hmapped : ∀ p, (w'.mem.cell p).isSome = (w.mem.cell p).isSome)
    (hfamily : Family d size S w'.mem) :
    Represents d size T undefinedByte ⟨S, update st.files fd cur⟩ w' := by
  have hshown := h.files.became hfd hb ⟨fun _ hp => hp.elim, hmapped⟩
  exact ⟨hfamily, hshown.regular, .refl _ _, hshown.undefinedByte, hshown.shows, hshown.separate⟩

variable [DecidableEq ι] {c : Call ι}

/-- A call does to memory and the streams what it does to the strings and the files. -/
def Follows (d size : ι → Nat) (T : Stream → Prop) (undefinedByte : UInt8) (st : Store ι)
    (w : World) (c : Call ι) : Prop :=
  ∃ w', (c.run d).run w = .ok ((c.answer undefinedByte st).map (addr d)) w' ∧
    Represents d size T undefinedByte (c.next undefinedByte st) w' ∧ Beyond d size w.mem w'.mem

/-- A call that fills a buffer from a stream. -/
theorem filled {p : Place ι} {bytes : List UInt8} (h : Represents d size T undefinedByte st w)
    (hfd : T fd) (hfit : Fits (size p.buffer) (st.strings p.buffer) p.offset bytes)
    (hmem : w'.mem = write w.mem (addr d p) bytes) (hb : Became w w' fd cur) :
    Represents d size T undefinedByte
        ⟨update st.strings p.buffer (splice (st.strings p.buffer) p.offset bytes),
          update st.files fd cur⟩ w' ∧
      Beyond d size w.mem w'.mem := by
  obtain ⟨hfamily, hbeyond⟩ := h.strings.write hfit
  have hmapped := write_mapped w.mem (addr d p) bytes
  have hplace : w'.mem = write w.mem (d p.buffer + p.offset) bytes := hmem
  rw [← hmem] at hmapped
  rw [← hplace] at hfamily hbeyond
  exact ⟨h.used hfd hb hmapped hfamily, hbeyond⟩

theorem call_follows (h : Represents d size T undefinedByte st w)
    (hlow : ∀ i, d i + size i < 0x10000000000000000)
    (hc : c.Allowed undefinedByte st size T) : Follows d size T undefinedByte st w c := by
  cases c with
  | string c =>
    obtain ⟨m, hrun, hfamily, hbeyond⟩ := StringStore.call_follows h.strings hlow hc.proper
    have hworld : (onMem (c.run d)).run w =
        .ok ((c.answer st.strings).map (addr d)) { w with mem := m } := by
      rw [run_onMem, hrun]
    exact ⟨{ w with mem := m }, map_ok hworld _, ⟨hfamily, shown_memory h.files m⟩, hbeyond⟩
  | use u fd =>
    obtain ⟨hfd, htell⟩ := hc.stream fd _ rfl
    obtain ⟨w', hrun, hmem, hbecame⟩ := use_run h hc.proper hfd htell
    refine ⟨w', hrun, h.used hfd hbecame ?_ ?_, ?_⟩
    · rw [hmem]
      exact fun _ => rfl
    · rw [hmem]
      exact h.strings
    · rw [hmem]
      exact .refl d size w.mem
  | fgets s n fd =>
    obtain ⟨hfd, _⟩ := hc.stream fd _ rfl
    obtain ⟨w', hrun, hmem, hbecame⟩ := fgets_run h hc.proper hfd
    exact ⟨w', hrun, filled h hfd (hc.fits s _ rfl) hmem hbecame⟩
  | fread buffer n count fd =>
    obtain ⟨hfd, _⟩ := hc.stream fd _ rfl
    obtain ⟨w', hrun, hmem, hbecame⟩ := fread_run h hc.proper hfd
    exact ⟨w', hrun, filled h hfd (hc.fits buffer _ rfl) hmem hbecame⟩

/-- Every call of the run is allowed where it is made. -/
def Legal (undefinedByte : UInt8) (size : ι → Nat) (T : Stream → Prop) :
    Store ι → List (Call ι) → Prop
  | _, [] => True
  | st, c :: calls => c.Allowed undefinedByte st size T ∧
      Legal undefinedByte size T (c.next undefinedByte st) calls

/-- What the calls of a run answer. -/
def answers (undefinedByte : UInt8) : Store ι → List (Call ι) → List (Answer (Place ι))
  | _, [] => []
  | st, c :: calls => c.answer undefinedByte st :: answers undefinedByte (c.next undefinedByte st)
      calls

/-- The strings and the files after a run. -/
def final (undefinedByte : UInt8) : Store ι → List (Call ι) → Store ι
  | st, [] => st
  | st, c :: calls => final undefinedByte (c.next undefinedByte st) calls

end Calls

/-- Append a line of the input to a string and print it. -/
def greeting : List (Call Bool) :=
  [.fgets ⟨true, 0⟩ 4 .stdin_file, .string (.strcat ⟨false, 0⟩ ⟨true, 0⟩),
    .use (.fputs ⟨false, 0⟩) .stdout_file]

end TextProgram
