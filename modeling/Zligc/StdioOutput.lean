import Zligc.StdioInput

/-!
# Writing a stream

Every writer puts its bytes at the cursor of the stream and moves the cursor
behind them. fputs adds a newline that only puts should add, and fputc accepts
only the values 0 to 255.
-/
namespace Stdio

open Effect CellMemory Zig Zligc OsFile

inductive Output where
  | fputc (ch : Int32)
  | putc (ch : Int32)
  | putchar (ch : Int32)
  | fputs (str : Nat)
  | puts (str : Nat)
  | fwrite (buffer size count : Nat)
  deriving DecidableEq, Repr

def Output.call (fd : Stream) : Output → Call
  | .fputc ch => .fputc ch (some fd)
  | .putc ch => .putc ch (some fd)
  | .putchar ch => .putchar ch
  | .fputs str => .fputs (some str) (some fd)
  | .puts str => .puts str
  | .fwrite buffer size count => .fwrite buffer size count (some fd)

/-- putchar and puts write standard output. -/
def Output.On (fd : Stream) : Output → Prop
  | .putchar _ | .puts _ => fd = .stdout_file
  | _ => True

/-- A character argument converted to `unsigned char`. -/
def byte (ch : Int32) : UInt8 := UInt8.ofNat (ch.toInt % 256).toNat

/-- The bytes that a call denotes in a memory. -/
inductive Output.Means (m : Mem) : Output → List UInt8 → Prop where
  | fputc (ch : Int32) : Means m (.fputc ch) [byte ch]
  | putc (ch : Int32) : Means m (.putc ch) [byte ch]
  | putchar (ch : Int32) : Means m (.putchar ch) [byte ch]
  | fputs {str : Nat} {s : List UInt8} : StringAt m str s → Means m (.fputs str) s
  | puts {str : Nat} {s : List UInt8} : StringAt m str s → Means m (.puts str) (s ++ [10])
  | fwrite {buffer size count : Nat} {bs : List UInt8} :
      Holds m buffer bs → bs.length = size * count → Means m (.fwrite buffer size count) bs

/-- The character of the call passes the cast to `u8`. -/
def Output.InRange : Output → Prop
  | .fputc ch | .putc ch | .putchar ch => 0 ≤ ch.toInt ∧ ch.toInt < 256
  | _ => True

def Output.isFputs : Output → Bool
  | .fputs _ => true
  | _ => false

/-- What a call writes that denotes `bytes`. -/
def Output.written (c : Output) (bytes : List UInt8) : List UInt8 :=
  if c.isFputs then bytes ++ [10] else bytes

section Writers

variable {w : World} {fd : Stream} {content : List UInt8} {offset : Nat}

theorem fputc_run {ch : Int32} (h : Sink w fd content offset)
    (hch : 0 ≤ ch.toInt ∧ ch.toInt < 256) :
    ∃ w', (fputc ch (some fd)).run w = .ok 0 w' ∧ w'.mem = w.mem ∧
      Sink w' fd (writeAt content offset [byte ch]) (offset + 1) ∧ Beside fd w w' := by
  have hbyte : UInt8.ofNat ch.toInt.toNat = byte ch := by
    rw [byte, Int.emod_eq_of_lt hch.1 hch.2]
  obtain ⟨w', hwrite, hw'⟩ := h.write_looked [byte ch]
  refine ⟨w', ?_, hw'⟩
  rw [fputc, bind_ok (lookup_some fd w), bind_ok (castU8_run _ hch), hbyte, bind_ok hwrite]
  rfl

/-- Any other character ends in a fault. -/
theorem fputc_fault {ch : Int32} (fd : Stream) (w : World)
    (hch : ¬ (0 ≤ ch.toInt ∧ ch.toInt < 256)) :
    (fputc ch (some fd)).run w = .error .integerCast (looked w) := by
  have hcast : (castU8 ch : Run World UInt8).run (looked w) = .error .integerCast (looked w) := by
    rw [castU8, if_neg hch]
    rfl
  rw [fputc, bind_ok (lookup_some fd w), bind_error hcast]

theorem fputs_run {str : Nat} {s : List UInt8} (h : Sink w fd content offset)
    (hs : StringAt w.mem str s) :
    ∃ w', (fputs (some str) (some fd)).run w = .ok 0 w' ∧ w'.mem = w.mem ∧
      Sink w' fd (writeAt content offset (s ++ [10])) (offset + (s ++ [10]).length) ∧
      Beside fd w w' := by
  have hslice : (onMem (Slice.toSliceConst str)).run (looked w) = .ok s (looked w) := by
    apply onMem_same
    rw [looked_mem, Slice.toSliceConst_run hs]
  obtain ⟨handle, d, hopen⟩ := h.opened
  obtain ⟨w₁, hwrite, hmem, hsink, hbeside⟩ := h.write_looked s
  obtain ⟨w₂, hwrite₂, hmem₂, hsink₂, hbeside₂⟩ := hsink.write [10]
  rw [writeAt_append, Nat.add_assoc, ← List.length_append] at hsink₂
  refine ⟨w₂, ?_, hmem₂.trans hmem, hsink₂, hbeside.trans hopen hbeside₂⟩
  rw [fputs, bind_ok (lookup_some fd w), bind_ok (unwrap_run str _), bind_ok hslice, bind_ok hwrite]
  simp only [Bool.not_true, Bool.false_eq_true, if_false]
  rw [bind_ok hwrite₂]
  rfl

theorem fwrite_run {buffer size count : Nat} {bs : List UInt8} (h : Sink w fd content offset)
    (hb : Holds w.mem buffer bs) (hlen : bs.length = size * count) :
    ∃ w', (fwrite buffer size count (some fd)).run w = .ok bs.length w' ∧ w'.mem = w.mem ∧
      Sink w' fd (writeAt content offset bs) (offset + bs.length) ∧ Beside fd w w' := by
  have hmul : count * size = bs.length := by rw [hlen, Nat.mul_comm]
  have hfit := hb.mapped.length_lt (by decide)
  have hslice : (onMem (Slice.slice buffer bs.length)).run (looked w) = .ok bs (looked w) := by
    apply onMem_same
    rw [looked_mem, Slice.slice_run hb]
  obtain ⟨w', hwrite, hw'⟩ := h.write_looked bs
  refine ⟨w', ?_, hw'⟩
  rw [fwrite, fwriteFrom, bind_ok (lookup_some fd w), bind_ok (mul_run _ (hmul ▸ hfit)), hmul,
    bind_ok hslice, bind_ok hwrite]
  rfl

/-- One call whose character is in range. -/
theorem output_step (h : Sink w fd content offset) {c : Output} {bytes : List UInt8}
    (hm : c.Means w.mem bytes) (hon : c.On fd) (hin : c.InRange) :
    ∃ w', (c.call fd).run.run w = .ok none w' ∧ w'.mem = w.mem ∧
      Sink w' fd (writeAt content offset (c.written bytes))
        (offset + (c.written bytes).length) ∧ Beside fd w w' := by
  cases hm with
  | fputc ch | putc ch =>
    obtain ⟨w', hrun, hw'⟩ := fputc_run h hin
    exact ⟨w', map_ok hrun _, hw'⟩
  | putchar ch =>
    obtain rfl : fd = .stdout_file := hon
    obtain ⟨w', hrun, hw'⟩ := fputc_run h hin
    exact ⟨w', map_ok hrun _, hw'⟩
  | fputs hs =>
    obtain ⟨w', hrun, hw'⟩ := fputs_run h hs
    exact ⟨w', map_ok hrun _, hw'⟩
  | puts hs =>
    obtain rfl : fd = .stdout_file := hon
    obtain ⟨w', hrun, hw'⟩ := fputs_run h hs
    rw [← optional_pos hs.bounds.1] at hrun
    exact ⟨w', map_ok hrun _, hw'⟩
  | fwrite hb hlen =>
    obtain ⟨w', hrun, hw'⟩ := fwrite_run h hb hlen
    exact ⟨w', map_ok hrun _, hw'⟩

/-- One call whose character is out of range. -/
theorem output_fault {c : Output} (hon : c.On fd) (hout : ¬ c.InRange) :
    ∃ w', (c.call fd).run.run w = .error .integerCast w' := by
  cases c with
  | fputc ch | putc ch => exact ⟨_, map_error (fputc_fault fd w hout) _⟩
  | putchar ch => exact ⟨_, map_error (fputc_fault .stdout_file w hout) _⟩
  | fputs | puts | fwrite => exact absurd trivial hout

/-- A run of calls whose characters are all in range. -/
theorem output_run (h : Sink w fd content offset) {calls : List Output}
    {denote : Output → List UInt8} (hm : ∀ c, c ∈ calls → c.Means w.mem (denote c))
    (hon : ∀ c, c ∈ calls → c.On fd) (hin : ∀ c, c ∈ calls → c.InRange) :
    ∃ w', (runCalls (calls.map (·.call fd))).run w = .ok () w' ∧
      Sink w' fd (writeAt content offset (calls.flatMap fun c => c.written (denote c)))
        (offset + (calls.flatMap fun c => c.written (denote c)).length) ∧ Beside fd w w' := by
  induction calls generalizing w content offset with
  | nil => exact ⟨w, rfl, by simpa [writeAt] using h, .refl fd w⟩
  | cons c calls ih =>
    simp only [List.forall_mem_cons] at hm hon hin
    obtain ⟨handle, d, hopen⟩ := h.opened
    obtain ⟨w₁, hrun, hmem, hsink, hbeside⟩ := output_step h hm.1 hon.1 hin.1
    obtain ⟨w₂, hruns, hsink₂, hbeside₂⟩ := ih hsink (hmem ▸ hm.2) hon.2 hin.2
    refine ⟨w₂, ?_, ?_, hbeside.trans hopen hbeside₂⟩
    · rw [List.map_cons, runCalls, bind_ok hrun]
      exact hruns
    · rw [List.flatMap_cons, List.length_append, ← Nat.add_assoc, ← writeAt_append]
      exact hsink₂

/-- A run that returns has passed every cast. -/
theorem output_inRange (h : Sink w fd content offset) {calls : List Output}
    {denote : Output → List UInt8} (hm : ∀ c, c ∈ calls → c.Means w.mem (denote c))
    (hon : ∀ c, c ∈ calls → c.On fd) {w' : World}
    (hrun : (runCalls (calls.map (·.call fd))).run w = .ok () w') :
    ∀ c, c ∈ calls → c.InRange := by
  induction calls generalizing w content offset with
  | nil => exact fun _ hc => absurd hc List.not_mem_nil
  | cons c calls ih =>
    simp only [List.forall_mem_cons] at hm hon ⊢
    by_cases hin : c.InRange
    · obtain ⟨w₁, hrun₁, hmem, hsink, _⟩ := output_step h hm.1 hon.1 hin
      rw [List.map_cons, runCalls, bind_ok hrun₁] at hrun
      exact ⟨hin, ih hsink (hmem ▸ hm.2) hon.2 hrun⟩
    · obtain ⟨w₁, hrun₁⟩ := output_fault (w := w) hon.1 hin
      rw [List.map_cons, runCalls, bind_error hrun₁] at hrun
      cases hrun

end Writers

/-- fputs writes one byte more than it denotes. -/
theorem written_length (calls : List Output) (denote : Output → List UInt8) :
    (calls.flatMap fun c => c.written (denote c)).length =
      (calls.flatMap denote).length + calls.countP Output.isFputs := by
  induction calls with
  | nil => rfl
  | cons c calls ih =>
    rw [List.flatMap_cons, List.flatMap_cons, List.length_append, List.length_append, ih,
      List.countP_cons, Output.written]
    split
    · rw [List.length_append, List.length_singleton]
      omega
    · omega

/-- Without fputs the calls write what they denote. -/
theorem written_exact {calls : List Output} (denote : Output → List UInt8)
    (h : ∀ c, c ∈ calls → c.isFputs = false) :
    (calls.flatMap fun c => c.written (denote c)) = calls.flatMap denote := by
  rw [List.flatMap_def, List.flatMap_def]
  refine congrArg List.flatten (List.map_congr_left fun c hc => ?_)
  rw [Output.written, h c hc]
  rfl

/-- The calls write exactly what they denote, and the cursor stands behind it. -/
def OutputLaw (w : World) (fd : Stream) (calls : List Output) (denote : Output → List UInt8)
    (content : List UInt8) (offset : Nat) : Prop :=
  ∃ w', (runCalls (calls.map (·.call fd))).run w = .ok () w' ∧
    Sink w' fd (writeAt content offset (calls.flatMap denote))
      (offset + (calls.flatMap denote).length)

/-- Two programs leave the stream in the same state. -/
def LeavesAlike (w : World) (fd : Stream) (x y : Run World Unit) : Prop :=
  ∀ content offset,
    Sink (after (x.run w)) fd content offset ↔ Sink (after (y.run w)) fd content offset

theorem output_law {w : World} {fd : Stream} {calls : List Output} {denote : Output → List UInt8}
    {content : List UInt8} {offset : Nat} (h : Sink w fd content offset)
    (hm : ∀ c, c ∈ calls → c.Means w.mem (denote c)) (hon : ∀ c, c ∈ calls → c.On fd) :
    OutputLaw w fd calls denote content offset ↔
      ∀ c, c ∈ calls → c.InRange ∧ c.isFputs = false := by
  constructor
  · rintro ⟨w', hrun, hsink⟩
    have hin := output_inRange h hm hon hrun
    obtain ⟨w'', hrun', hsink', _⟩ := output_run h hm hon hin
    obtain rfl : w'' = w' := by
      rw [hrun] at hrun'
      exact (EStateM.Result.ok.inj hrun').2.symm
    have hcount := hsink.offset_unique hsink'
    rw [written_length] at hcount
    have hzero : calls.countP Output.isFputs = 0 := by omega
    rw [List.countP_eq_zero] at hzero
    exact fun c hc => ⟨hin c hc, by simpa using hzero c hc⟩
  · intro hexact
    obtain ⟨w', hrun, hsink, _⟩ := output_run h hm hon fun c hc => (hexact c hc).1
    rw [written_exact denote fun c hc => (hexact c hc).2] at hsink
    exact ⟨w', hrun, hsink⟩

theorem byte_widen (b : UInt8) : byte (widen b) = b := by
  have hlt := b.toNat_lt
  rw [byte, widen_toInt, Int.emod_eq_of_lt (by omega) (by omega)]
  simp

/-- fputc of every byte of a list. -/
theorem fputc_each {w : World} {fd : Stream} {content : List UInt8} {offset : Nat}
    (h : Sink w fd content offset) (s : List UInt8) :
    ∃ w', (runCalls (s.map fun b => .fputc (widen b) (some fd))).run w = .ok () w' ∧
      Sink w' fd (writeAt content offset s) (offset + s.length) := by
  induction s generalizing w content offset with
  | nil => exact ⟨w, rfl, by simpa [writeAt] using h⟩
  | cons b s ih =>
    have hlt := b.toNat_lt
    have hin : 0 ≤ (widen b).toInt ∧ (widen b).toInt < 256 := by
      rw [widen_toInt]
      omega
    obtain ⟨w₁, hrun, _, hsink, _⟩ := fputc_run h hin
    rw [byte_widen] at hsink
    obtain ⟨w₂, hruns, hsink₂⟩ := ih hsink
    have hcall : (Call.fputc (widen b) (some fd)).run.run w = .ok none w₁ := map_ok hrun _
    refine ⟨w₂, ?_, ?_⟩
    · rw [List.map_cons, runCalls, bind_ok hcall]
      exact hruns
    · have happend := writeAt_append content offset [b] s
      rw [List.length_singleton] at happend
      rw [happend, Nat.add_assoc, Nat.add_comm 1] at hsink₂
      exact hsink₂

/-- fputs moves the cursor one byte further than fputc of every byte of the string does. -/
theorem fputs_not_fputc {w : World} {fd : Stream} {content : List UInt8} {offset str : Nat}
    {s : List UInt8} (h : Sink w fd content offset) (hs : StringAt w.mem str s) :
    ¬ LeavesAlike w fd (runCalls [.fputs (some str) (some fd)])
      (runCalls (s.map fun b => .fputc (widen b) (some fd))) := by
  intro halike
  obtain ⟨w₁, hrun, _, hsink, _⟩ := fputs_run h hs
  obtain ⟨w₂, hrun₂, hsink₂⟩ := fputc_each h s
  have hcall : (Call.fputs (some str) (some fd)).run.run w = .ok none w₁ := map_ok hrun _
  have hrun₁ : (runCalls [.fputs (some str) (some fd)]).run w = .ok () w₁ := by
    rw [runCalls, bind_ok hcall]
    rfl
  have hboth := (halike _ _).mp (by rw [hrun₁]; exact hsink)
  rw [hrun₂] at hboth
  have hoff := hboth.offset_unique hsink₂
  simp at hoff

/-- One round of the loop that copies a stream line by line. -/
def copyLine (buf : Nat) (size : Int32) (inp out : Stream) : Run World Unit := do
  let _ ← fgets buf size (some inp)
  let _ ← fputs (some buf) (some out)

/-- After `n` rounds the copy holds the bytes that were taken from the input, and no others. -/
def CopyLaw (w : World) (inp out : Stream) (rest content : List UInt8) (offset buf : Nat)
    (size : Int32) (n : Nat) : Prop :=
  ∃ w' taken left, (repeated (copyLine buf size inp out) n).run w =
      .ok (List.replicate n ()) w' ∧ rest = taken ++ left ∧ Source w' inp left ∧
    Sink w' out (writeAt content offset taken) (offset + taken.length)

/-- The string that fgets leaves in its buffer is no shorter than what it took from a stream without
NUL bytes. -/
theorem lineOf_string (c : UInt8) {rest : List UInt8} (h0 : 0 ∉ rest) (n : Nat) :
    min (lineOf c rest n).length rest.length ≤ ((lineOf c rest n).takeWhile (· != 0)).length := by
  induction n generalizing rest with
  | zero => simp [lineOf]
  | succ n ih =>
    cases rest with
    | nil => simp
    | cons b rest =>
      rw [List.mem_cons, not_or] at h0
      have hrest := ih h0.2
      rw [lineOf]
      split
      · simp
      · simp only [List.headD_cons, List.tail_cons, List.length_cons]
        rw [List.takeWhile_cons_of_pos (by simpa using Ne.symm h0.1), List.length_cons]
        omega

/-- The bytes before the first zero are followed by a zero. -/
theorem takeWhile_terminated (line : List UInt8) :
    ∃ tail, line ++ [0] = line.takeWhile (· != 0) ++ [0] ++ tail := by
  induction line with
  | nil => exact ⟨[], rfl⟩
  | cons b line ih =>
    obtain ⟨tail, htail⟩ := ih
    by_cases hb : b = 0
    · exact ⟨line ++ [0], by simp [hb]⟩
    · refine ⟨tail, ?_⟩
      rw [List.takeWhile_cons_of_pos (by simpa using hb), List.cons_append, htail]
      rfl

theorem stringAt_takeWhile {m : Mem} {a : Nat} {line : List UInt8} (h : Holds m a (line ++ [0])) :
    StringAt m a (line.takeWhile (· != 0)) := by
  obtain ⟨tail, htail⟩ := takeWhile_terminated line
  rw [htail] at h
  refine ⟨h.left, fun h0 => ?_⟩
  simpa using List.all_eq_true.mp List.all_takeWhile 0 h0

section Copying

variable {w : World} {inp out : Stream} {rest content : List UInt8} {offset buf : Nat}
  {size : Int32}

/-- Every round adds a byte that the input did not have. -/
theorem copyLine_run (h : Source w inp rest) (ho : Sink w out content offset)
    (hs : Separate w inp out) (h0 : 0 ∉ rest) (hsize : 0 < size.toInt)
    (hmap : Mapped w.mem buf size.toInt.toNat) :
    ∃ w' sent k, (copyLine buf size inp out).run w = .ok () w' ∧
      Mapped w'.mem buf size.toInt.toNat ∧ Separate w' inp out ∧ Source w' inp (rest.drop k) ∧
      Sink w' out (writeAt content offset sent) (offset + sent.length) ∧
      min k rest.length < sent.length := by
  obtain ⟨w₁, hget, hmem, _, hsource, hbeside⟩ := fgets_run size h hsize hmap
  have hle := lineOf_string w.undefinedByte h0 (size.toInt.toNat - 1)
  have hlen := lineOf_length_le w.undefinedByte rest (size.toInt.toNat - 1)
  generalize lineOf w.undefinedByte rest (size.toInt.toNat - 1) = line at hmem hsource hle hlen
  have hstring : StringAt w₁.mem buf (line.takeWhile (· != 0)) := by
    apply stringAt_takeWhile
    rw [hmem]
    apply holds_write
    refine hmap.part (Nat.le_refl _) ?_
    rw [List.length_append, List.length_singleton]
    omega
  obtain ⟨w₂, hput, hmem₂, hsink, hbeside₂⟩ := fputs_run (ho.beside hs hbeside) hstring
  have hs₁ := hs.beside hbeside
  refine ⟨w₂, _, line.length, ?_, ?_, (hs₁.symm.beside hbeside₂).symm,
    hsource.beside hs₁.symm hbeside₂, hsink, ?_⟩
  · rw [copyLine, bind_ok hget, bind_ok hput]
    rfl
  · rw [hmem₂, hmem]
    exact hmap.write _ _
  · rw [List.length_append, List.length_singleton]
    omega

theorem copy_run (h : Source w inp rest) (ho : Sink w out content offset)
    (hs : Separate w inp out) (h0 : 0 ∉ rest) (hsize : 0 < size.toInt)
    (hmap : Mapped w.mem buf size.toInt.toNat) (n : Nat) :
    ∃ w' sent k, (repeated (copyLine buf size inp out) n).run w =
        .ok (List.replicate n ()) w' ∧
      Source w' inp (rest.drop k) ∧
      Sink w' out (writeAt content offset sent) (offset + sent.length) ∧
      min k rest.length + n ≤ sent.length := by
  induction n generalizing w rest content offset with
  | zero => exact ⟨w, [], 0, rfl, h, by simpa [writeAt] using ho, by simp⟩
  | succ n ih =>
    obtain ⟨w₁, sent, k, hrun, hmap₁, hs₁, hsource, hsink, hlt⟩ :=
      copyLine_run h ho hs h0 hsize hmap
    have h0₁ : 0 ∉ rest.drop k := fun hmem => h0 (List.mem_of_mem_drop hmem)
    obtain ⟨w₂, sent₂, k₂, hruns, hsource₂, hsink₂, hle⟩ := ih hsource hsink hs₁ h0₁ hmap₁
    refine ⟨w₂, sent ++ sent₂, k + k₂, repeated_succ hrun hruns, ?_, ?_, ?_⟩
    · rw [← List.drop_drop]
      exact hsource₂
    · rw [List.length_append, ← Nat.add_assoc, ← writeAt_append]
      exact hsink₂
    · rw [List.length_drop] at hle
      rw [List.length_append]
      omega

/-- The copy is exact only as long as nothing was copied. -/
theorem copy_law (h : Source w inp rest) (ho : Sink w out content offset)
    (hs : Separate w inp out) (h0 : 0 ∉ rest) (hsize : 0 < size.toInt)
    (hmap : Mapped w.mem buf size.toInt.toNat) (n : Nat) :
    CopyLaw w inp out rest content offset buf size n ↔ n = 0 := by
  constructor
  · rintro ⟨w', taken, left, hrun, hrest, hsource, hsink⟩
    obtain ⟨w'', sent, k, hrun', hsource', hsink', hle⟩ := copy_run h ho hs h0 hsize hmap n
    obtain rfl : w'' = w' := by
      rw [hrun] at hrun'
      exact (EStateM.Result.ok.inj hrun').2.symm
    have hoff := hsink.offset_unique hsink'
    have hleft := congrArg List.length (hsource.unique hsource')
    have htaken := congrArg List.length hrest
    rw [List.length_drop] at hleft
    rw [List.length_append] at htaken
    omega
  · rintro rfl
    exact ⟨w, [], rest, rfl, rfl, h, by simpa [writeAt] using ho⟩

end Copying

/-- On an open stream a sequence of writers writes exactly what it denotes when and only when it
has no fputs and every character is in range. fputs never does what fputc of its bytes does, and a
copy line by line is exact only while it is empty. -/
theorem output_stream_law {w : World} {fd : Stream} {content : List UInt8} {offset : Nat}
    (h : Sink w fd content offset) :
    (∀ calls denote, (∀ c, c ∈ calls → Output.Means w.mem c (denote c)) →
      (∀ c, c ∈ calls → c.On fd) →
      (OutputLaw w fd calls denote content offset ↔
        ∀ c, c ∈ calls → c.InRange ∧ c.isFputs = false)) ∧
    (∀ str s, StringAt w.mem str s →
      ¬ LeavesAlike w fd (runCalls [.fputs (some str) (some fd)])
        (runCalls (s.map fun b => .fputc (widen b) (some fd)))) ∧
    ∀ inp rest buf size n, Source w inp rest → Separate w inp fd → 0 ∉ rest → 0 < size.toInt →
      Mapped w.mem buf size.toInt.toNat →
      (CopyLaw w inp fd rest content offset buf size n ↔ n = 0) :=
  ⟨fun _ _ hm hon => output_law h hm hon, fun _ _ hs => fputs_not_fputc h hs,
    fun _ _ _ _ n hsource hs h0 hsize hmap => copy_law hsource h hs h0 hsize hmap n⟩

/-- The strings "a", "w" and "r" behind the static buffer, the byte 120 and three more. -/
def stringMem : Mem :=
  image 0x10000 [97, 0, 119, 0, 114, 0, 120, 7, 7, 7] (by decide) (by decide)

theorem string_a : StringAt stringMem 0x10000 [97] := ⟨by decide, by decide⟩

theorem output_stream_law_example :
    OutputLaw (readyWorld stringMem [98]) .stdout_file [.putchar 65, .puts 0x10000]
      (fun c => if c = .puts 0x10000 then [97, 10] else [65]) [] 0 ∧
    ¬ LeavesAlike (readyWorld stringMem [98]) .stdout_file
      (runCalls [.fputs (some 0x10000) (some .stdout_file)])
      (runCalls ([97].map fun b => .fputc (widen b) (some .stdout_file))) ∧
    ¬ CopyLaw (readyWorld stringMem [98]) .stdin_file .stdout_file [98] [] 0 0x10007 2 1 := by
  obtain ⟨hlaw, halike, hcopy⟩ := output_stream_law (ready_sink stringMem [98])
  refine ⟨(hlaw _ _ ?_ ?_).mpr ?_, halike 0x10000 [97] string_a, fun hone => ?_⟩
  · exact List.forall_mem_cons.mpr ⟨.putchar 65, List.forall_mem_singleton.mpr (.puts string_a)⟩
  · exact List.forall_mem_cons.mpr ⟨rfl, List.forall_mem_singleton.mpr rfl⟩
  · exact List.forall_mem_cons.mpr ⟨⟨⟨by decide, by decide⟩, rfl⟩,
      List.forall_mem_singleton.mpr ⟨trivial, rfl⟩⟩
  · have hzero := (hcopy .stdin_file [98] 0x10007 2 1 (ready_source _ _) (ready_separate _ _)
      (by decide) (by decide) (by decide)).mp hone
    cases hzero

/-- fputs of "a" to an empty standard output leaves two bytes in it. -/
theorem fputs_newline :
    (after ((fputs (some 0x10000) (some .stdout_file)).run
      (readyWorld stringMem []))).kernel.contents 1 = [97, 10] ∧
    ¬ OutputLaw (readyWorld stringMem []) .stdout_file [.fputs 0x10000] (fun _ => [97]) [] 0 := by
  refine ⟨by decide, fun hlaw => ?_⟩
  have hmeans : ∀ c, c ∈ [Output.fputs 0x10000] → c.Means stringMem [97] :=
    List.forall_mem_singleton.mpr (.fputs string_a)
  have hon : ∀ c, c ∈ [Output.fputs 0x10000] → c.On .stdout_file :=
    List.forall_mem_singleton.mpr trivial
  cases ((output_law (ready_sink stringMem []) hmeans hon).mp hlaw _ List.mem_cons_self).2

end Stdio
