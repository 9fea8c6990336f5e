import Mathlib.Data.List.GetD
import Zligc.Ctype
import Zligc.StdlibEnvironment
import Zligc.StdioFormat

/-!
# The example program

main of example.c asks for the time, greets, prints an environment variable and a format, and copies
its input line by line. The lookup that initialises the streams is its second one, so the greeting
is lost; and fgets never returns null, so nothing behind the copying is ever reached.
-/
namespace Time

open Effect Zig Zligc

/-- The bytes that a `time_t` has in memory. -/
def bytesOf (s : Int64) : List UInt8 :=
  (List.range 8).map fun i => UInt8.ofNat (s.toUInt64.toNat >>> (8 * i))

/-- time of time.zig, when std's clock shows `timestamp`. -/
def time (timestamp : UInt64) (maybe_t : Option Nat) : Run World Int64 := do
  let s ← castLong timestamp.toNat
  if let some t := maybe_t then
    onMem (Slice.fill t (bytesOf s))
  return s

theorem time_run {timestamp : UInt64} (h : timestamp.toNat < 0x8000000000000000) (w : World) :
    (time timestamp none).run w = .ok (Int64.ofNat timestamp.toNat) w := by
  have hcast : (castLong timestamp.toNat).run w = .ok (Int64.ofNat timestamp.toNat) w := by
    rw [castLong, if_pos h]
    rfl
  rw [time, bind_ok hcast]
  rfl

end Time

namespace Example

open Effect CellMemory Zig Zligc OsFile Stdlib Crt Stdio FormatString

/-- What the program starts with: the time, the environment pointers, and the addresses of its
literals and of its local buffer. -/
structure Program where
  timestamp : UInt64
  words : WordMem
  posix_environ_raw : Words
  greeting : Nat
  label : Nat
  home : Nat
  fmt : Nat
  test_txt : Nat
  r : Nat
  w : Nat
  buf : Nat

def get_value : UInt8 := 97

/-- getenv of the process that the program runs in. -/
def Program.getenv (p : Program) (name : Nat) : Run World (Option Nat) := fun w =>
  match (Stdlib.getenv name).run ⟨p.words, w.mem, p.posix_environ_raw⟩ with
  | .ok r s => .ok r { w with mem := s.mem }
  | .error e s => .error e { w with mem := s.mem }

/-- One round of the loop that copies standard input. -/
def copyRound (buf : Nat) : Unit → Run World (Turn Unit Unit) := fun _ => do
  let some _ ← fgets buf 128 (some .stdin_file) | return .done ()
  let _ ← fputs (some buf) (some .stdout_file)
  return .next ()

/-- main with a bound on the rounds of its loop. -/
def main (p : Program) (rounds : Nat) : Run World Int32 := do
  let _ ← Time.time p.timestamp none
  let _ ← puts p.greeting
  let senv ← p.getenv p.home
  let _ ← puts p.label
  let _ ← puts (senv.getD 0)
  let _ ← test_fprintf (some .stdout_file) p.fmt
  let _ : Unit ← loop .exhausted (copyRound p.buf) rounds ()
  let fd ← fopen p.test_txt p.r
  let _ ← freopen none p.w fd
  Ctype.toupper (widen get_value)

/-- Memory holds the literals and the buffer. -/
structure Program.Loaded (p : Program) (m : Mem) : Prop where
  greeting : StringAt m p.greeting (bytes "Hello, from Zig!")
  label : StringAt m p.label (bytes "env HOME:")
  home : StringAt m p.home (bytes "HOME")
  fmt : StringAt m p.fmt (bytes "%s, hello 0x%x %d %c %p %u %f %e\n")
  buf : Mapped m p.buf 128

/-- What the format is printed as. -/
def formatted (printed : UInt8 → List UInt8) : List UInt8 :=
  bytes "dummy, hello 0x5 -5 A " ++ printed 112 ++ bytes " 5 " ++ printed 102 ++ bytes " " ++
    printed 101 ++ [10]

/-- What is left of the input after `n` rounds. -/
def left (c : UInt8) (input : List UInt8) : Nat → List UInt8
  | 0 => input
  | n + 1 => (left c input n).drop (lineOf c (left c input n) 127).length

/-- What fgets stores in a round. -/
def chunk (c : UInt8) (input : List UInt8) (i : Nat) : List UInt8 := lineOf c (left c input i) 127

/-- What `n` rounds print. -/
def copied (c : UInt8) (input : List UInt8) (n : Nat) : List UInt8 :=
  (List.range n).flatMap fun i => (chunk c input i).takeWhile (· != 0) ++ [10]

/-- A process before its first call, on a system in which nothing fails. Its input can be read and
its output goes to another file; an undefined record is no descriptor that can be written. -/
structure Prepared (w : World) (input content : List UInt8) (offset : Nat) : Prop where
  started : Started w
  reliable : ∀ n, w.kernel.policy.fails n = false
  descriptors : ∃ d d', w.kernel.table 0 = some d ∧ d.readable = true ∧
    (w.kernel.contents d.inode).drop d.offset = input ∧ w.kernel.table 1 = some d' ∧
    d'.writable = true ∧ w.kernel.contents d'.inode = content ∧ d'.offset = offset ∧
    d.inode ≠ d'.inode
  unusable : ∀ d, w.kernel.table w.undefinedHandle = some d → d.writable = false

section Formats

/-- The pieces of the format. -/
def fmtPieces : List (Piece UInt8) :=
  [.directive 115] ++ (bytes ", hello 0x").map .plain ++ [.directive 120, .plain 32] ++
    [.directive 100, .plain 32, .directive 99, .plain 32, .directive 112, .plain 32] ++
    [.directive 117, .plain 32, .directive 102, .plain 32, .directive 101, .plain 10]

theorem fmt_decomposes :
    Decomposes 37 (bytes "%s, hello 0x%x %d %c %p %u %f %e\n") fmtPieces := by
  have hbytes : bytes "%s, hello 0x%x %d %c %p %u %f %e\n" = [37, 115, 44, 32, 104, 101, 108, 108,
      111, 32, 48, 120, 37, 120, 32, 37, 100, 32, 37, 99, 32, 37, 112, 32, 37, 117, 32, 37, 102, 32,
      37, 101, 10] := rfl
  have hpieces : fmtPieces = .directive 115 :: ([44, 32, 104, 101, 108, 108, 111, 32, 48,
      120].map .plain ++ [.directive 120, .plain 32, .directive 100, .plain 32, .directive 99,
      .plain 32, .directive 112, .plain 32, .directive 117, .plain 32, .directive 102, .plain 32,
      .directive 101, .plain 10]) := rfl
  rw [hbytes, hpieces]
  repeat' first | exact .nil | refine .directive ?_ | refine .plain (by decide) ?_

theorem fmt_expand (printed : UInt8 → List UInt8) :
    expand (directive printed) fmtPieces = formatted printed := by
  have hs : directive printed 115 = bytes "dummy" := rfl
  have hx : directive printed 120 = bytes "5" := rfl
  have hd : directive printed 100 = bytes "-5" := rfl
  have hc : directive printed 99 = bytes "A" := rfl
  have hp : directive printed 112 = printed 112 := rfl
  have hu : directive printed 117 = bytes "5" := rfl
  have hf : directive printed 102 = printed 102 := rfl
  have he : directive printed 101 = printed 101 := rfl
  simp [expand, fmtPieces, formatted, Piece.expand, bytes, hs, hx, hd, hc, hp, hu, hf, he]

end Formats

/-- What the system and the compiler chose stays as it is. -/
theorem chosen_discipline (policy : Policy) (c : UInt8) :
    Discipline (fun w => w.kernel.policy = policy ∧ w.undefinedByte = c)
      (fun _ w => w.kernel.policy = policy ∧ w.undefinedByte = c)
      (fun _ w => w.kernel.policy = policy ∧ w.undefinedByte = c)
      (fun w => w.kernel.policy = policy ∧ w.undefinedByte = c) where
  lookup handle w hw := by
    have hlooked : (looked w).kernel.policy = policy ∧ (looked w).undefinedByte = c := by
      rwa [looked_kernel, looked_undefinedByte]
    rw [lookup_run]
    cases handle with
    | none => exact hlooked
    | some fd => exact hlooked
  use fd f hf w hw := by
    rw [apply_run]
    exact ⟨(hf _ _).1.trans hw.1, hw.2⟩
  paths ps f failed hf w hw := by
    rw [onPaths_run]
    cases w.fixed.alloc (w.kernel.policy.scratchFor ps) 1 with
    | none => exact hw
    | some r => exact ⟨(hf _).1.trans hw.1, hw.2⟩
  again _ _ hw := hw
  between _ _ hw := hw
  memory _ _ hw := hw
  pending_memory _ _ _ hw := hw
  used_memory _ _ _ hw := hw
  stopped _ hw := hw
  pending_stopped _ _ hw := hw

section Calls

variable {w w' : World} {fd : Stream} {content input s : List UInt8} {offset p : Nat}

theorem fputs_chosen {str : Option Nat} {stream : Option Stream} {r : Int32}
    (h : (fputs str stream).run w = .ok r w') :
    w'.kernel.policy = w.kernel.policy ∧ w'.undefinedByte = w.undefinedByte := by
  have hrun := (chosen_discipline w.kernel.policy w.undefinedByte).fputs str stream w ⟨rfl, rfl⟩
  rw [h] at hrun
  exact hrun

theorem format_chosen {stream : Option Stream} {fmt : Nat} {r : Int32}
    (h : (test_fprintf stream fmt).run w = .ok r w') :
    w'.kernel.policy = w.kernel.policy ∧ w'.undefinedByte = w.undefinedByte := by
  have hrun := (chosen_discipline w.kernel.policy w.undefinedByte).test_fprintf stream fmt w
    ⟨rfl, rfl⟩
  rw [h] at hrun
  exact hrun

/-- fputs to a stream that is a sink after the lookup. -/
theorem fputs_looked (h : Sink (looked w) fd content offset) (hs : StringAt w.mem p s) :
    ∃ w', (fputs (some p) (some fd)).run w = .ok 0 w' ∧ w'.mem = w.mem ∧
      Sink w' fd (writeAt content offset (s ++ [10])) (offset + (s ++ [10]).length) ∧
      Beside fd (looked w) w' := by
  have hslice : (onMem (Slice.toSliceConst p)).run (looked w) = .ok s (looked w) := by
    apply onMem_same
    rw [looked_mem, Slice.toSliceConst_run hs]
  obtain ⟨handle, d, hopen⟩ := h.opened
  obtain ⟨w₁, hwrite, hmem, hsink, hbeside⟩ := h.write s
  obtain ⟨w₂, hwrite₂, hmem₂, hsink₂, hbeside₂⟩ := hsink.write [10]
  rw [writeAt_append, Nat.add_assoc, ← List.length_append] at hsink₂
  refine ⟨w₂, ?_, ?_, hsink₂, hbeside.trans hopen hbeside₂⟩
  · rw [fputs, bind_ok (lookup_some fd w), bind_ok (unwrap_run p _), bind_ok hslice,
      bind_ok hwrite]
    simp only [Bool.not_true, Bool.false_eq_true, if_false]
    rw [bind_ok hwrite₂]
    rfl
  · rw [hmem₂, hmem, looked_mem]

/-- The null pointer is unwrapped after the lookup. -/
theorem puts_null (w : World) : (puts 0).run w = .error .nullUnwrap (looked w) := by
  rw [puts, fputs, bind_ok (lookup_some .stdout_file w)]
  rfl

/-- A write to what is no descriptor for writing writes nothing. -/
theorem write_refused {k : Kernel} {h : Int32}
    (hrefused : ∀ d, k.table h = some d → d.writable = false) (bytes : List UInt8) :
    k.write h bytes = (k.tick, false) := by
  unfold Kernel.write
  cases htable : k.table h with
  | none => rfl
  | some d => simp [hrefused d htable]

/-- A lookup that is not the first one opens the standard streams. -/
theorem opened_by_lookup {h : Int32} {d : Description} (hres : w.resolved ≠ 0)
    (hfd : standard fd = some h) (hd : w.kernel.table h = some d)
    (hall : ∀ n, w.kernel.policy.fails n = false) : Open (looked w) fd h d := by
  have hrecord : (looked w).records fd = some h := by
    rw [looked, if_neg hres]
    simp only [initialised, hfd]
  refine ⟨⟨hrecord, fun n hn => ⟨Option.some.inj (hfd.symm.trans hn), looked_resolved w⟩, ?_⟩, ?_⟩
  · rwa [looked_kernel]
  · rwa [looked_kernel]

/-- The first write of a process goes to an undefined record. The next lookup then finds the
standard streams. -/
theorem first_puts (h : Prepared w input content offset) (hs : StringAt w.mem p s) :
    ∃ w', (puts p).run w = .ok (-1) w' ∧ w'.mem = w.mem ∧ w'.kernel = w.kernel.tick ∧
      w'.undefinedByte = w.undefinedByte ∧ Source (looked w') .stdin_file input ∧
      Sink (looked w') .stdout_file content offset ∧
      Separate (looked w') .stdin_file .stdout_file := by
  have hrecord : (looked w).records .stdout_file = none := by
    rw [looked, if_pos h.started.resolved]
    exact h.started.records .stdout_file
  have hslice : (onMem (Slice.toSliceConst p)).run (looked w) = .ok s (looked w) := by
    apply onMem_same
    rw [looked_mem, Slice.toSliceConst_run hs]
  obtain ⟨w₁, hwrite, hmem, hkernel, hbyte, hres⟩ : ∃ w₁,
      (File.write .stdout_file s).run (looked w) = .ok false w₁ ∧ w₁.mem = w.mem ∧
        w₁.kernel = w.kernel.tick ∧ w₁.undefinedByte = w.undefinedByte ∧ w₁.resolved ≠ 0 := by
    have hwrite := apply_run .stdout_file (·.write · s) (looked w)
    rw [hrecord, looked_kernel, looked_undefinedHandle, Option.getD_none,
      write_refused h.unusable] at hwrite
    exact ⟨_, hwrite, looked_mem w, rfl, looked_undefinedByte w, looked_resolved w⟩
  have hall : ∀ n, w₁.kernel.policy.fails n = false := by
    rw [hkernel]
    exact h.reliable
  obtain ⟨d, d', h0, hd, hinput, h1, hd', hcontent, hoffset, hfiles⟩ := h.descriptors
  have hstdin : Open (looked w₁) .stdin_file 0 d := opened_by_lookup hres rfl (hkernel ▸ h0) hall
  have hstdout : Open (looked w₁) .stdout_file 1 d' := opened_by_lookup hres rfl (hkernel ▸ h1) hall
  have hcontents : (looked w₁).kernel.contents = w.kernel.contents := by
    rw [looked_kernel, hkernel]
    rfl
  refine ⟨w₁, ?_, hmem, hkernel, hbyte, ⟨0, d, hstdin, hd, ?_⟩, ⟨1, d', hstdout, hd', ?_, hoffset⟩,
    ⟨0, d, 1, d', hstdin, hstdout, by decide, hfiles⟩⟩
  · rw [puts, optional_pos hs.bounds.1, fputs, bind_ok (lookup_some _ w),
      bind_ok (unwrap_run p _), bind_ok hslice, bind_ok hwrite]
    rfl
  · rw [hcontents, hinput]
  · rw [hcontents, hcontent]

/-- test_fprintf with the format of the program. -/
theorem format_run {fmt : Nat} (h : Sink w fd content offset)
    (hbuf : Buffered w.kernel.policy.printed)
    (hfmt : StringAt w.mem fmt (bytes "%s, hello 0x%x %d %c %p %u %f %e\n")) :
    ∃ w', (test_fprintf (some fd) fmt).run w = .ok 0 w' ∧ w'.mem = w.mem ∧
      Sink w' fd (writeAt content offset (formatted w.kernel.policy.printed))
        (offset + (formatted w.kernel.policy.printed).length) ∧ Beside fd w w' := by
  obtain ⟨w', hrun, hwrote⟩ := test_fprintf_prints h hbuf hfmt.nonzero fmt_decomposes fmt
  rw [fmt_expand] at hwrote
  obtain ⟨handle, d, hopen, hd, hcontent, hoffset⟩ := hwrote.sink
  refine ⟨_, hrun w.mem hfmt, rfl, ⟨handle, d, hopen.memory _, hd, hcontent, hoffset⟩, ?_⟩
  refine ⟨fun h d hw => ?_, hwrote.beside.files, fun fd' h d hw hne => ?_⟩
  · obtain ⟨o, hmoved⟩ := hwrote.beside.moved h d hw
    exact ⟨o, hmoved.memory _⟩
  · exact (hwrote.beside.others fd' h d hw hne).memory _

end Calls

/-- `i` rounds of the loop have been made from an input and an output. -/
structure Copying (buf : Nat) (c : UInt8) (input content : List UInt8) (offset i : Nat)
    (w : World) : Prop where
  byte : w.undefinedByte = c
  buffer : Mapped w.mem buf 128
  separate : Separate w .stdin_file .stdout_file
  source : Source w .stdin_file (left c input i)
  sink : Sink w .stdout_file (writeAt content offset (copied c input i))
    (offset + (copied c input i).length)

section Copying

variable {w : World} {input content : List UInt8} {offset i buf : Nat} {c : UInt8}

theorem copied_succ (c : UInt8) (input : List UInt8) (n : Nat) :
    copied c input (n + 1) =
      copied c input n ++ ((chunk c input n).takeWhile (· != 0) ++ [10]) := by
  rw [copied, List.range_succ, List.flatMap_append, List.flatMap_singleton]
  rfl

theorem copyRound_run (h : Copying buf c input content offset i w) :
    ∃ w', (copyRound buf ()).run w = .ok (.next ()) w' ∧
      Copying buf c input content offset (i + 1) w' := by
  have hsize : (128 : Int32).toInt = 128 := rfl
  obtain ⟨w₁, hget, hmem, hbyte, hsource, hbeside⟩ :=
    fgets_run (s := buf) 128 h.source (by decide) h.buffer
  rw [h.byte] at hmem hsource
  have hlen := lineOf_length_le c (left c input i) 127
  have hstring : StringAt w₁.mem buf ((chunk c input i).takeWhile (· != 0)) := by
    apply stringAt_takeWhile
    rw [hmem]
    apply holds_write
    refine h.buffer.part (Nat.le_refl _) ?_
    rw [List.length_append, List.length_singleton]
    exact Nat.add_le_add_left (Nat.succ_le_succ hlen) buf
  obtain ⟨w₂, hput, hmem₂, hsink, hbeside₂⟩ := fputs_run (h.sink.beside h.separate hbeside) hstring
  have hseparate := h.separate.beside hbeside
  rw [writeAt_append, Nat.add_assoc, ← List.length_append, ← copied_succ] at hsink
  refine ⟨w₂, ?_, ?_, ?_, (hseparate.symm.beside hbeside₂).symm,
    hsource.beside hseparate.symm hbeside₂, hsink⟩
  · rw [copyRound, bind_ok hget, bind_ok hput]
    rfl
  · rw [(fputs_chosen hput).2, hbyte, h.byte]
  · rw [hmem₂, hmem]
    exact h.buffer.write _ _

/-- The loop goes on for ever. -/
theorem copying_endless (h : Copying buf c input content offset 0 w) (n : Nat) :
    ∃ w', (loop .exhausted (copyRound buf) n ()).run w = .error .exhausted w' ∧
      Copying buf c input content offset n w' := by
  have hround : ∀ i (_ : Unit) w, Copying buf c input content offset i w →
      ∃ (b : Unit) (w' : World), (copyRound buf ()).run w = .ok (.next b) w' ∧
        Copying buf c input content offset (i + 1) w' := by
    intro i _ w hw
    obtain ⟨w', hrun, hnext⟩ := copyRound_run hw
    exact ⟨(), w', hrun, hnext⟩
  obtain ⟨_, w', hrun, hlast⟩ := loop_endless hround h n
  rw [Nat.zero_add] at hlast
  exact ⟨w', hrun, hlast⟩

end Copying

/-- What the loop does not print stands before it: the name of the variable, its value and the
format. -/
def opening (printed : UInt8 → List UInt8) (value : List UInt8) : List UInt8 :=
  bytes "env HOME:" ++ [10] ++ (value ++ [10]) ++ formatted printed

/-- The key of the variable. -/
def homeKey : List UInt8 := bytes "HOME"

/-- main, cut off after any number of rounds. With a value of HOME it is still in its loop, and has
printed all but the greeting; without one it unwraps the null pointer and panics. An entry that is
only a key ends it before it has printed anything. -/
structure Behaves (p : Program) (env : List (UInt64 × List UInt8)) (input content : List UInt8)
    (offset : Nat) (w : World) (n : Nat) : Prop where
  missing : entryOf homeKey env = none → ∃ w', (main p n).run w = .error .nullUnwrap w' ∧
    Source w' .stdin_file input ∧
    Sink w' .stdout_file (writeAt content offset (bytes "env HOME:" ++ [10]))
      (offset + (bytes "env HOME:" ++ [10]).length)
  found : ∀ e, entryOf homeKey env = some e → 61 ∈ e.2 → ∃ value w',
    e.2 = homeKey ++ 61 :: value ∧ (main p n).run w = .error .exhausted w' ∧
    Source w' .stdin_file (left w.undefinedByte input n) ∧
    Sink w' .stdout_file
      (writeAt content offset
        (opening w.kernel.policy.printed value ++ copied w.undefinedByte input n))
      (offset + (opening w.kernel.policy.printed value ++ copied w.undefinedByte input n).length)
  unmarked : ∀ e, entryOf homeKey env = some e → 61 ∉ e.2 → ∃ w',
    (main p n).run w = .error (.panic "index out of bounds") w' ∧
      w'.kernel.contents = w.kernel.contents

section Runs

variable {p : Program} {w : World} {env : List (UInt64 × List UInt8)} {e : UInt64 × List UInt8}
  {input content : List UInt8} {offset : Nat}

/-- The process that getenv sees. -/
def Program.environment (p : Program) (w : World) : Environment :=
  ⟨p.words, w.mem, p.posix_environ_raw⟩

theorem getenv_ok {name : Nat} {r : Option Nat}
    (h : (Stdlib.getenv name).run (p.environment w) = .ok r (p.environment w)) :
    (p.getenv name).run w = .ok r w := by
  show (match (Stdlib.getenv name).run (p.environment w) with
    | .ok r s => EStateM.Result.ok r { w with mem := s.mem }
    | .error e s => .error e { w with mem := s.mem }) = _
  rw [h]
  rfl

theorem getenv_error {name : Nat} {fault : Fault}
    (h : (Stdlib.getenv name).run (p.environment w) = .error fault (p.environment w)) :
    (p.getenv name).run w = .error fault w := by
  show (match (Stdlib.getenv name).run (p.environment w) with
    | .ok r s => EStateM.Result.ok r { w with mem := s.mem }
    | .error e s => .error e { w with mem := s.mem }) = _
  rw [h]
  rfl

/-- The state behind the label. -/
structure Labelled (w : World) (input content : List UInt8) (offset : Nat) (w₂ : World) : Prop where
  mem : w₂.mem = w.mem
  policy : w₂.kernel.policy = w.kernel.policy
  byte : w₂.undefinedByte = w.undefinedByte
  separate : Separate w₂ .stdin_file .stdout_file
  source : Source w₂ .stdin_file input
  sink : Sink w₂ .stdout_file (writeAt content offset (bytes "env HOME:" ++ [10]))
    (offset + (bytes "env HOME:" ++ [10]).length)

/-- puts of a string writes it with a newline. -/
theorem puts_run {w w' : World} {s : List UInt8} {q : Nat} {r : Int32} (hs : StringAt w.mem q s)
    (h : (fputs (some q) (some .stdout_file)).run w = .ok r w') : (puts q).run w = .ok r w' := by
  rw [puts, optional_pos hs.bounds.1]
  exact h

/-- Up to the label, with what getenv is going to find between the two puts. -/
theorem main_starts (h : Prepared w input content offset) (hp : p.Loaded w.mem)
    (henv : (p.environment w).Lists env) :
    ∃ w₁ w₂, (puts p.greeting).run w = .ok (-1) w₁ ∧ w₁.mem = w.mem ∧
      w₁.kernel.contents = w.kernel.contents ∧
      Searched p.home homeKey env (p.environment w₁) ∧ (puts p.label).run w₁ = .ok 0 w₂ ∧
      Labelled w input content offset w₂ := by
  obtain ⟨w₁, hgreet, hmem, hkernel, hbyte, hsource, hsink, hseparate⟩ := first_puts h hp.greeting
  obtain ⟨w₂, hput, hmem₂, hsink₂, hbeside⟩ := fputs_looked hsink (hmem ▸ hp.label)
  obtain ⟨hpolicy, hbyte₂⟩ := fputs_chosen hput
  rw [hkernel] at hpolicy
  have hsearch : Searched p.home homeKey env (p.environment w₁) := by
    have hsame : p.environment w₁ = p.environment w := by
      rw [Program.environment, hmem]
      rfl
    rw [hsame]
    exact getenv_searched henv hp.home
  refine ⟨w₁, w₂, hgreet, hmem, by rw [hkernel]; rfl, hsearch, puts_run (hmem ▸ hp.label) hput,
    hmem₂.trans hmem, hpolicy, hbyte₂.trans hbyte, (hseparate.symm.beside hbeside).symm,
    hsource.beside hseparate.symm hbeside, hsink₂⟩

/-- From the label on, with the value of the variable. -/
theorem main_goes_on {w₂ : World} {a : Nat} {value : List UInt8} (hp : p.Loaded w.mem)
    (h : Labelled w input content offset w₂) (hbuf : Buffered w.kernel.policy.printed)
    (hvalue : StringAt w.mem a value) :
    ∃ w₃ w₄, (puts a).run w₂ = .ok 0 w₃ ∧
      (test_fprintf (some .stdout_file) p.fmt).run w₃ = .ok 0 w₄ ∧
      Copying p.buf w.undefinedByte input
        (writeAt content offset (opening w.kernel.policy.printed value))
        (offset + (opening w.kernel.policy.printed value).length) 0 w₄ := by
  obtain ⟨w₃, hput, hmem₃, hsink₃, hbeside₃⟩ := fputs_run h.sink (h.mem ▸ hvalue)
  obtain ⟨hpolicy, hbyte⟩ := fputs_chosen hput
  rw [h.policy] at hpolicy
  rw [h.mem] at hmem₃
  obtain ⟨w₄, hprint, hmem₄, hsink₄, hbeside₄⟩ :=
    format_run hsink₃ (hpolicy ▸ hbuf) (hmem₃ ▸ hp.fmt)
  have hbyte₄ := (format_chosen hprint).2.trans hbyte
  have hseparate₃ := h.separate.symm.beside hbeside₃
  have hsource₃ := h.source.beside h.separate.symm hbeside₃
  refine ⟨w₃, w₄, puts_run (h.mem ▸ hvalue) hput, hprint, hbyte₄.trans h.byte, ?_,
    (hseparate₃.beside hbeside₄).symm, hsource₃.beside hseparate₃ hbeside₄, ?_⟩
  · rw [hmem₄, hmem₃]
    exact hp.buf
  · rw [hpolicy, writeAt_append, writeAt_append, Nat.add_assoc, Nat.add_assoc,
      ← List.length_append, ← List.length_append, ← List.append_assoc] at hsink₄
    have hnone : copied w.undefinedByte input 0 = [] := rfl
    rw [hnone, writeAt, if_pos rfl]
    exact hsink₄

/-- With a value of the variable main is still in its loop after any number of rounds. -/
theorem main_found (h : Prepared w input content offset) (hp : p.Loaded w.mem)
    (htime : p.timestamp.toNat < 0x8000000000000000) (hbuf : Buffered w.kernel.policy.printed)
    (henv : (p.environment w).Lists env) (hfirst : entryOf homeKey env = some e) (hsign : 61 ∈ e.2)
    (n : Nat) :
    ∃ value w', e.2 = homeKey ++ 61 :: value ∧ (main p n).run w = .error .exhausted w' ∧
      Source w' .stdin_file (left w.undefinedByte input n) ∧
      Sink w' .stdout_file
        (writeAt content offset
          (opening w.kernel.policy.printed value ++ copied w.undefinedByte input n))
        (offset +
          (opening w.kernel.policy.printed value ++ copied w.undefinedByte input n).length) := by
  obtain ⟨w₁, w₂, hgreet, hmem, _, hsearch, hlabel, hlabelled⟩ := main_starts h hp henv
  obtain ⟨value, hvalue, hrun, hstring⟩ := hsearch.found e hfirst hsign
  have hget := getenv_ok hrun
  have hplace : StringAt w.mem (e.1.toNat + (homeKey.length + 1)) value := by
    rw [← hmem]
    exact hstring
  obtain ⟨w₃, w₄, hput, hprint, hcopying⟩ := main_goes_on hp hlabelled hbuf hplace
  obtain ⟨w₅, hloop, hlast⟩ := copying_endless hcopying n
  refine ⟨value, w₅, hvalue, ?_, hlast.source, ?_⟩
  · rw [main, bind_ok (Time.time_run htime w), bind_ok hgreet, bind_ok hget, bind_ok hlabel,
      Option.getD_some, bind_ok hput, bind_ok hprint, bind_error hloop]
  · have hsink := hlast.sink
    rwa [writeAt_append, Nat.add_assoc, ← List.length_append] at hsink

theorem main_behaves (h : Prepared w input content offset) (hp : p.Loaded w.mem)
    (htime : p.timestamp.toNat < 0x8000000000000000) (hbuf : Buffered w.kernel.policy.printed)
    (henv : (p.environment w).Lists env) (n : Nat) :
    Behaves p env input content offset w n := by
  obtain ⟨w₁, w₂, hgreet, _, hcontents, hsearch, hlabel, hlabelled⟩ := main_starts h hp henv
  have htold := Time.time_run htime w
  constructor
  · intro hnone
    have hget := getenv_ok (hsearch.missing hnone)
    refine ⟨looked w₂, ?_, ?_, hlabelled.sink.looked⟩
    · rw [main, bind_ok htold, bind_ok hgreet, bind_ok hget, bind_ok hlabel]
      exact bind_error (puts_null w₂) _
    · exact hlabelled.source.beside hlabelled.separate.symm (beside_looked _ w₂)
  · intro e hfirst hsign
    exact main_found h hp htime hbuf henv hfirst hsign n
  · intro e hfirst hsign
    have hget := getenv_error (hsearch.unmarked e hfirst hsign)
    exact ⟨w₁, by rw [main, bind_ok htold, bind_ok hgreet, bind_error hget], hcontents⟩

end Runs

/-- The literals, an entry of the environment, and a buffer. -/
def exampleMem : Mem :=
  image 0x20000 (bytes "Hello, from Zig!" ++ [0] ++ (bytes "env HOME:" ++ [0]) ++
    (bytes "HOME" ++ [0]) ++ (bytes "%s, hello 0x%x %d %c %p %u %f %e\n" ++ [0]) ++
    (bytes "HOME=/" ++ [0]) ++ List.replicate 128 7) (by decide) (by decide +kernel)

def exampleProgram : Program where
  timestamp := 1546300800
  words := image 48 [131138] (by decide) (by decide)
  posix_environ_raw := ⟨48, 1⟩
  greeting := 131072
  label := 131089
  home := 131099
  fmt := 131104
  test_txt := 131099
  r := 131099
  w := 131099
  buf := 131145

theorem example_loaded : exampleProgram.Loaded exampleMem := by
  refine ⟨⟨?_, ?_⟩, ⟨?_, ?_⟩, ⟨?_, ?_⟩, ⟨?_, ?_⟩, ?_⟩ <;> decide +kernel

theorem example_prepared (input : List UInt8) :
    Prepared (startWorld exampleMem (Kernel.started .lowest input)) input [] 0 := by
  refine ⟨⟨rfl, fun _ => rfl, rfl⟩, fun _ => rfl, ?_, fun d hd => ?_⟩
  · exact ⟨⟨0, 0, true, false⟩, ⟨1, 0, false, true⟩, rfl, rfl, rfl, rfl, rfl, rfl, rfl, by decide⟩
  · cases hd

theorem example_lists (input : List UInt8) :
    (exampleProgram.environment (startWorld exampleMem (Kernel.started .lowest input))).Lists
      [(131138, bytes "HOME=/")] := by
  have hentry : StringAt exampleMem 131138 (bytes "HOME=/") :=
    ⟨by decide +kernel, by decide +kernel⟩
  have hpointers : Holds exampleProgram.words 48 [131138] := by decide
  exact ⟨hpointers, rfl, List.forall_mem_singleton.mpr hentry⟩

theorem main_behaves_example :
    Behaves exampleProgram [(131138, bytes "HOME=/")] [104, 105, 10] [] 0
      (startWorld exampleMem (Kernel.started .lowest [104, 105, 10])) 2 :=
  main_behaves (example_prepared _) example_loaded (by decide) (fun _ => Nat.le_add_left 1 63)
    (example_lists _) 2

section Echo

variable {c : UInt8} {input rest : List UInt8}

/-- What fgets stores is the beginning of what is left, with the undefined byte behind it. -/
theorem lineOf_bytes (c : UInt8) (rest : List UInt8) (n : Nat) :
    lineOf c rest n = (List.range (lineOf c rest n).length).map fun i => rest.getD i c := by
  induction n generalizing rest with
  | zero => rfl
  | succ n ih =>
    have hhead : rest.headD c = rest.getD 0 c := by cases rest <;> rfl
    have htail : ∀ i, rest.tail.getD i c = rest.getD (i + 1) c := by
      intro i
      cases rest <;> simp
    rw [lineOf]
    split
    · rename_i hnl
      rw [← hnl, hhead]
      rfl
    · have hrest := ih rest.tail
      simp only [htail] at hrest
      rw [List.length_cons, List.range_succ_eq_map, List.map_cons, List.map_map, ← hhead]
      exact congrArg (rest.headD c :: ·) hrest

/-- What `n` rounds of fgets store. -/
def chunks (c : UInt8) (input : List UInt8) (n : Nat) : List UInt8 :=
  (List.range n).flatMap (chunk c input)

theorem chunks_succ (c : UInt8) (input : List UInt8) (n : Nat) :
    chunks c input (n + 1) = chunks c input n ++ chunk c input n := by
  rw [chunks, List.range_succ, List.flatMap_append, List.flatMap_singleton]
  rfl

theorem left_eq (c : UInt8) (input : List UInt8) (n : Nat) :
    left c input n = input.drop (chunks c input n).length := by
  induction n with
  | zero => rfl
  | succ n ih =>
    rw [left, chunks_succ, List.length_append, ← List.drop_drop, ← ih]
    rfl

/-- The rounds store the input, byte for byte and in order, and then the undefined byte. -/
theorem chunks_bytes (c : UInt8) (input : List UInt8) (n : Nat) :
    chunks c input n = (List.range (chunks c input n).length).map fun i => input.getD i c := by
  induction n with
  | zero => rfl
  | succ n ih =>
    have hchunk := lineOf_bytes c (left c input n) 127
    have hleft : ∀ i, (left c input n).getD i c = input.getD ((chunks c input n).length + i) c := by
      intro i
      rw [left_eq, List.getD_eq_getElem?_getD, List.getD_eq_getElem?_getD, List.getElem?_drop]
    simp only [hleft] at hchunk
    rw [chunks_succ, List.length_append, List.range_add, List.map_append, List.map_map, ← ih]
    exact congrArg (chunks c input n ++ ·) hchunk

theorem lineOf_pos (c : UInt8) (rest : List UInt8) (n : Nat) : 0 < (lineOf c rest (n + 1)).length := by
  rw [lineOf]
  split <;> simp

theorem chunks_length (c : UInt8) (input : List UInt8) (n : Nat) :
    n ≤ (chunks c input n).length := by
  induction n with
  | zero => exact Nat.zero_le _
  | succ n ih =>
    have hpos : 0 < (chunk c input n).length := lineOf_pos c (left c input n) 126
    rw [chunks_succ, List.length_append]
    omega

theorem lineOf_mem {b : UInt8} {n : Nat} (h : b ∈ lineOf c rest n) : b ∈ rest ∨ b = c := by
  rw [lineOf_bytes] at h
  obtain ⟨i, _, rfl⟩ := List.mem_map.mp h
  rcases Nat.lt_or_ge i rest.length with hlt | hge
  · rw [List.getD_eq_getElem _ _ hlt]
    exact Or.inl (List.getElem_mem hlt)
  · exact Or.inr (List.getD_eq_default _ _ hge)

/-- Without NUL bytes every chunk is printed whole. -/
theorem copied_chunks (hinput : 0 ∉ input) (hc : c ≠ 0) (n : Nat) :
    copied c input n = ((List.range n).map (chunk c input)).flatMap (· ++ [10]) := by
  have hwhole : ∀ i, (chunk c input i).takeWhile (· != 0) = chunk c input i := by
    intro i
    refine List.takeWhile_eq_self_iff.mpr fun b hb => ?_
    rcases lineOf_mem hb with hmem | rfl
    · rw [left_eq] at hmem
      have hne : b ≠ 0 := fun h0 => hinput (h0 ▸ List.mem_of_mem_drop hmem)
      simpa using hne
    · simpa using hc
  simp only [copied, hwhole, List.flatMap_map]

end Echo

/-- On an input without NUL bytes the program prints `n` lines in `n` rounds. Together they are the
first bytes of the input, in order and none left out, and behind its end the undefined byte; each
line has a newline more than that. -/
theorem input_echoed {p : Program} {w : World} {env : List (UInt64 × List UInt8)} {a : UInt64}
    {input content value : List UInt8} {offset : Nat} (h : Prepared w input content offset)
    (hp : p.Loaded w.mem) (htime : p.timestamp.toNat < 0x8000000000000000)
    (hbuf : Buffered w.kernel.policy.printed) (henv : (p.environment w).Lists env)
    (hhome : entryOf homeKey env = some (a, homeKey ++ 61 :: value)) (hinput : 0 ∉ input)
    (hbyte : w.undefinedByte ≠ 0) (n : Nat) :
    ∃ (lines : List (List UInt8)) (w' : World), (main p n).run w = .error .exhausted w' ∧
      lines.length = n ∧ n ≤ lines.flatten.length ∧
      lines.flatten = (List.range lines.flatten.length).map (input.getD · w.undefinedByte) ∧
      Sink w' .stdout_file
        (writeAt content offset
          (opening w.kernel.policy.printed value ++ lines.flatMap (· ++ [10])))
        (offset + (opening w.kernel.policy.printed value ++ lines.flatMap (· ++ [10])).length) := by
  have hsign : 61 ∈ (a, homeKey ++ 61 :: value).2 := List.mem_append_right homeKey List.mem_cons_self
  obtain ⟨value', w', hvalue, hrun, _, hsink⟩ := main_found h hp htime hbuf henv hhome hsign n
  obtain rfl : value = value' := by simpa using hvalue
  rw [copied_chunks hinput hbyte] at hsink
  have hflat : ((List.range n).map (chunk w.undefinedByte input)).flatten =
      chunks w.undefinedByte input n := rfl
  refine ⟨_, w', hrun, by simp, ?_, ?_, hsink⟩
  · rw [hflat]
    exact chunks_length _ input n
  · rw [hflat]
    exact chunks_bytes _ input n

theorem input_echoed_example :
    ∃ (lines : List (List UInt8)) (w' : World), (main exampleProgram 2).run
        (startWorld exampleMem (Kernel.started .lowest [104, 105])) = .error .exhausted w' ∧
      lines.length = 2 ∧ 2 ≤ lines.flatten.length ∧
      lines.flatten = (List.range lines.flatten.length).map (([104, 105] : List UInt8).getD · 0xaa) ∧
      Sink w' .stdout_file (writeAt [] 0 (opening (fun ch => [ch]) [47] ++ lines.flatMap (· ++ [10])))
        (0 + (opening (fun ch => [ch]) [47] ++ lines.flatMap (· ++ [10])).length) :=
  input_echoed (example_prepared _) example_loaded (by decide) (fun _ => Nat.le_add_left 1 63)
    (example_lists _) rfl (by decide) (by decide) 2

end Example
