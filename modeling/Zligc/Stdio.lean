import Zligc.World
import Zligc.Slice

/-!
# The functions of stdio.zig

Every function that takes a stream looks its handle up with `readOpaqueHandle`
before it uses the File record. An error of std.os.File is caught where the
source catches it; the panics of the source are faults.
-/
namespace Stdio

open Effect Zig Zligc OsFile Function

def EOF : Int32 := -1

/-- Keep an event. -/
def note (e : Event) : Run World Unit := step fun w => ((), { w with events := w.events ++ [e] })

namespace File

/-- The handle in a File record. -/
def handle (fd : Stream) : Run World Int32 := do
  step fun w => ((w.records fd).getD w.undefinedHandle,
    { w with events := w.events ++ [.dereference fd (w.records fd).isSome] })

/-- Store a File in the record behind a pointer. -/
def assign (fd : Stream) (file : Option Int32) : Run World Unit :=
  step fun w => ((), { w with records := update w.records fd file })

/-- An operation of the kernel on paths, with the scratch memory it takes from the allocator; an
error is caught as `failed`. -/
def onPaths {β : Type} (paths : List (List UInt8)) (f : Kernel → Kernel × β) (failed : β) :
    Run World β := do
  let policy := (← get).kernel.policy
  let some _ ← reserve (policy.scratchFor paths) 1 | return failed
  step fun w => ((f w.kernel).2, { w with kernel := (f w.kernel).1 })

def openWrite (path : List UInt8) : Run World (Option Int32) :=
  onPaths [path] (·.openWrite path) none

/-- An operation of the kernel on the handle of a File. -/
def apply {β : Type} (fd : Stream) (f : Kernel → Int32 → Kernel × β) : Run World β := do
  let h ← handle fd
  step fun w => ((f w.kernel h).2, { w with kernel := (f w.kernel h).1 })

/-- The bytes read into the buffer, and whether the read succeeded. -/
def read (fd : Stream) (n : Nat) : Run World (List UInt8 × Bool) := apply fd (·.read · n)

def write (fd : Stream) (bytes : List UInt8) : Run World Bool := apply fd (·.write · bytes)

def seekTo (fd : Stream) (offset : Nat) : Run World Bool := apply fd (·.seekTo · offset)

def seekForward (fd : Stream) (amount : Int) : Run World Bool :=
  apply fd (·.seekForward · amount)

def getPos (fd : Stream) : Run World (Option Nat) := apply fd Kernel.getPos

/-- The record is what the policy leaves in a closed one. -/
def close (fd : Stream) : Run World Unit := do
  assign fd (← apply fd fun k h => (k.close h, k.policy.closed h))

end File

/-- std.os.deleteFile -/
def deleteFile (path : List UInt8) : Run World Bool :=
  File.onPaths [path] (·.deleteFile path) false

/-- std.os.rename -/
def osRename (old new : List UInt8) : Run World Bool :=
  File.onPaths [old, new] (·.rename old new) false

/-- getStdIn, getStdOut and getStdErr make Files of the descriptors 0, 1 and 2. -/
def initStreams : Run World Unit := do
  note .initStreams
  File.assign .stdin_file (some 0)
  File.assign .stdout_file (some 1)
  File.assign .stderr_file (some 2)

/-- `@cmpxchgStrong` on `resolved`: null when the exchange succeeded, the old value when it
failed. -/
def cmpxchgStrong (expected new : UInt8) : Run World (Option UInt8) := step fun w =>
  if w.resolved = expected then (none, { w with resolved := new }) else (some w.resolved, w)

def readOpaqueHandle (handle : Option Stream) : Run World Stream := do
  note .lookup
  if (← cmpxchgStrong 0 1).isSome then
    initStreams
  unwrap handle

/-- `@sizeOf(File)` and `@alignOf(File)`. -/
def sizeOfFile : Nat := 4

def fopen (filename _mode : Nat) : Run World (Option Stream) := do
  let some addr ← reserve sizeOfFile sizeOfFile | return none
  let fd := Stream.created addr
  File.assign fd none
  let some file ← File.openWrite (← onMem (Slice.toSliceConst filename)) | return none
  File.assign fd (some file)
  return some fd

def fopen64 (filename mode : Nat) : Run World (Option Stream) := fopen filename mode

def freopen (maybe_filename : Option Nat) (_mode : Nat) (stream : Option Stream) :
    Run World (Option Stream) := do
  match maybe_filename with
  | some filename =>
    let fd ← readOpaqueHandle stream
    File.close fd
    let some file ← File.openWrite (← onMem (Slice.toSliceConst filename)) | return none
    File.assign fd (some file)
    return some fd
  | none => throw (.panic "TODO: reopen existing stream with new mode")

def freopen64 (maybe_filename : Option Nat) (mode : Nat) (stream : Option Stream) :
    Run World (Option Stream) :=
  freopen maybe_filename mode stream

def fclose (stream : Option Stream) : Run World Int32 := do
  let fd ← readOpaqueHandle stream
  File.close fd
  return 0

def rename (old_filename new_filename : Option Nat) : Run World Int32 := do
  let old ← onMem (Slice.toSliceConst (← unwrap old_filename))
  let new ← onMem (Slice.toSliceConst (← unwrap new_filename))
  if ← osRename old new then
    return 0
  else
    return -1

def remove (pathname : Option Nat) : Run World Int32 := do
  if ← deleteFile (← onMem (Slice.toSliceConst (← unwrap pathname))) then
    return 0
  else
    return -1

def fseek (stream : Option Stream) (offset : Int64) (origin : Int32) : Run World Int32 := do
  let fd ← readOpaqueHandle stream
  if origin = 0 then
    if ← File.seekTo fd (← castUsize offset.toInt) then
      return 0
    else
      return -1
  else if origin = 1 then
    if ← File.seekForward fd offset.toInt then
      return 0
    else
      return -1
  else if origin = 2 then
    throw (.panic "TODO: unimplemented SEEK_END")
  else
    throw (.panic "fseek unreachable")

def ftell (stream : Option Stream) : Run World Int64 := do
  let fd ← readOpaqueHandle stream
  let some pos ← File.getPos fd | return -1
  castLong pos

def rewind (stream : Option Stream) : Run World Unit := do
  let fd ← readOpaqueHandle stream
  if !(← File.seekTo fd 0) then
    throw (.panic "rewind unreachable")

def fread (buffer size count : Nat) (stream : Option Stream) : Run World Nat := do
  let fd ← readOpaqueHandle stream
  let n ← mul count size
  let (got, success) ← File.read fd n
  onMem (Slice.fill buffer got)
  return if success then got.length else 0

/-- fwrite of a buffer whose first `n` bytes are `bytes n`. -/
def fwriteFrom (bytes : Nat → Run Mem (List UInt8)) (size count : Nat) (stream : Option Stream) :
    Run World Nat := do
  let fd ← readOpaqueHandle stream
  let b ← onMem (bytes (← mul count size))
  if ← File.write fd b then
    return b.length
  else
    return 0

def fwrite (buffer size count : Nat) (stream : Option Stream) : Run World Nat :=
  fwriteFrom (Slice.slice buffer) size count stream

def fgetc (stream : Option Stream) : Run World Int32 := do
  let fd ← readOpaqueHandle stream
  let (got, success) ← File.read fd 1
  if success then
    return widen (got.headD (← get).undefinedByte)
  else
    return EOF

def getc (stream : Option Stream) : Run World Int32 := fgetc stream

def _IO_getc (stream : Option Stream) : Run World Int32 := getc stream

def getchar : Run World Int32 := fgetc (some .stdin_file)

def fputc (ch : Int32) (stream : Option Stream) : Run World Int32 := do
  let fd ← readOpaqueHandle stream
  let b ← castU8 ch
  if ← File.write fd [b] then
    return 0
  else
    return EOF

def putc (ch : Int32) (stream : Option Stream) : Run World Int32 := fputc ch stream

def putchar (ch : Int32) : Run World Int32 := fputc ch (some .stdout_file)

def fputs (str : Option Nat) (stream : Option Stream) : Run World Int32 := do
  let fd ← readOpaqueHandle stream
  if !(← File.write fd (← onMem (Slice.toSliceConst (← unwrap str)))) then
    return -1
  if !(← File.write fd [10]) then
    return -1
  return 0

def puts (str : Nat) : Run World Int32 := fputs (optional str) (some .stdout_file)

/-- One round of the loop of fgets, which stores the byte number `i`. -/
def fgetsRound (s : Nat) (size : Int32) (stream : Option Stream) (i : Nat) :
    Run World (Turn Nat Nat) := do
  if i < (← sub (← castUsize size.toInt) 1) then
    let ch ← fgetc stream
    if ch = EOF then
      return .done i
    else if ch = 10 then
      onMem (store s i (← castU8 ch))
      return .done (← add i 1)
    else
      onMem (store s i (← castU8 ch))
      return .next (← add i 1)
  else
    return .done i

def fgets (s : Nat) (size : Int32) (stream : Option Stream) : Run World (Option Nat) := do
  let i ← while_ 0 (fgetsRound s size stream)
  onMem (store s i 0)
  return some s

/-- The bytes of a string literal. -/
def bytes (text : String) : List UInt8 := text.toList.map fun c => UInt8.ofNat c.toNat

/-- What test_fprintf writes for a conversion character other than '%' and NUL. Its two floats and
the address of its buffer are printed by std, as `printed` gives them. -/
def rendering (printed : UInt8 → List UInt8) (ch : UInt8) : List UInt8 :=
  if ch ∈ bytes "di" then bytes "-5"
  else if ch ∈ bytes "uxX" then bytes "5"
  else if ch ∈ bytes "eE" then printed 101
  else if ch ∈ bytes "fF" then printed 102
  else if ch ∈ bytes "p" then printed 112
  else if ch ∈ bytes "c" then bytes "A"
  else if ch ∈ bytes "s" then bytes "dummy"
  else bytes "(unknown: %" ++ [ch] ++ bytes ")"

def test_fprintf (stream : Option Stream) (fmt : Nat) : Run World Int32 := do
  let _ : Unit ← while_ 0 fun i => do
    if (← onMem (load fmt i)) != 0 then
      let ch ← onMem (load fmt i)
      let i ← add i 1
      if ch != 37 then
        let _ ← fputc (widen ch) stream
        return .next i
      let ch ← onMem (load fmt i)
      let i ← add i 1
      if ch = 0 then
        return .done ()
      else if ch = 37 then
        let _ ← fputc 37 stream
        return .next i
      else
        let text := rendering (← get).kernel.policy.printed ch
        let _ ← fwriteFrom (fun _ => pure text) 1 text.length stream
        return .next i
    else
      return .done ()
  return 0

def clearerr (_stream : Option Stream) : Run World Unit := pure ()

def feof (_stream : Option Stream) : Run World Int32 := pure 0

def ferror (_stream : Option Stream) : Run World Int32 := pure 0

def fflush (_stream : Option Stream) : Run World Int32 := pure 0

def setvbuf (_stream : Option Stream) (_buf : Nat) (_mode : Int32) (_size : Nat) :
    Run World Int32 := pure 0

end Stdio
