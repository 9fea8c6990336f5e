import Zligc.StdioOutput
import Zligc.FormatString

/-!
# The formats of test_fprintf

The loop goes through its format piece by piece. It copies a plain byte, writes what a directive
stands for and stops at the terminator, also at one behind a single percent sign. Of memory it
reads nothing but the format: it does the same in every memory that holds the string, and so in
the one that holds nothing else, where any further access is a fault.
-/
namespace Stdio

open Effect CellMemory Zig Zligc OsFile FormatString

variable {α β : Type}

/-- The program neither depends on memory nor changes it. -/
def Blind (x : Run World α) : Prop := ∀ w m,
  x.run { w with mem := m } =
    match x.run w with
    | .ok a w' => .ok a { w' with mem := m }
    | .error e w' => .error e { w' with mem := m }

theorem Blind.run {x : Run World α} {w w' : World} {a : α} (h : Blind x) (hrun : x.run w = .ok a w')
    (m : Mem) : x.run { w with mem := m } = .ok a { w' with mem := m } := by
  rw [h w m, hrun]

theorem Blind.bind {x : Run World α} {f : α → Run World β} (hx : Blind x) (hf : ∀ a, Blind (f a)) :
    Blind (x >>= f) := by
  intro w m
  rw [EStateM.run_bind, EStateM.run_bind, hx w m]
  cases x.run w with
  | ok a w' => exact hf a w' m
  | error e w' => rfl

theorem blind_lookup (handle : Option Stream) : Blind (readOpaqueHandle handle) := by
  intro w m
  have hlooked : looked { w with mem := m } = { looked w with mem := m } := by
    unfold looked
    split <;> rfl
  rw [lookup_run, lookup_run, hlooked]
  cases handle <;> rfl

theorem blind_castU8 (ch : Int32) : Blind (castU8 ch) := by
  intro w m
  unfold castU8
  split <;> rfl

theorem blind_mul (a b : Nat) : Blind (mul a b) := by
  intro w m
  unfold mul
  split <;> rfl

theorem blind_fputc (ch : Int32) (stream : Option Stream) : Blind (fputc ch stream) := by
  apply (blind_lookup stream).bind
  intro fd
  apply (blind_castU8 ch).bind
  intro b
  apply Blind.bind fun _ _ => rfl
  intro success
  cases success <;> exact fun _ _ => rfl

theorem blind_fwriteFrom (text : List UInt8) (size count : Nat) (stream : Option Stream) :
    Blind (fwriteFrom (fun _ => pure text) size count stream) := by
  apply (blind_lookup stream).bind
  intro fd
  apply (blind_mul count size).bind
  intro n
  apply Blind.bind fun _ _ => rfl
  intro b
  apply Blind.bind fun _ _ => rfl
  intro success
  cases success <;> exact fun _ _ => rfl

/-- No call changes the policy of the system. -/
theorem policy_discipline (policy : Policy) :
    Discipline (fun w => w.kernel.policy = policy) (fun _ w => w.kernel.policy = policy)
      (fun _ w => w.kernel.policy = policy) (fun w => w.kernel.policy = policy) where
  lookup handle w hw := by
    have hlooked : (looked w).kernel.policy = policy := by rwa [looked_kernel]
    rw [lookup_run]
    cases handle with
    | none => exact hlooked
    | some fd => exact hlooked
  use fd f hf w hw := by
    rw [apply_run]
    exact (hf _ _).1.trans hw
  paths ps f failed hf w hw := by
    rw [onPaths_run]
    cases w.fixed.alloc (w.kernel.policy.scratchFor ps) 1 with
    | none => exact hw
    | some r => exact (hf _).1.trans hw
  again _ _ hw := hw
  between _ _ hw := hw
  memory _ _ hw := hw
  pending_memory _ _ _ hw := hw
  used_memory _ _ _ hw := hw
  stopped _ hw := hw
  pending_stopped _ _ hw := hw

/-- From `w` to `w'` the text was written to a stream whose cursor was at an offset. -/
structure Wrote (fd : Stream) (content : List UInt8) (offset : Nat) (text : List UInt8)
    (w w' : World) : Prop where
  policy : w'.kernel.policy = w.kernel.policy
  sink : Sink w' fd (writeAt content offset text) (offset + text.length)
  beside : Beside fd w w'

section Pieces

variable {w w' : World} {fd : Stream} {content text : List UInt8} {offset fmt i : Nat}
  {stream : Option Stream} {m : Mem} {ch : UInt8}

theorem Wrote.trans {w'' : World} {text' : List UInt8} (h : Sink w fd content offset)
    (hw : Wrote fd content offset text w w')
    (hw' : Wrote fd (writeAt content offset text) (offset + text.length) text' w' w'') :
    Wrote fd content offset (text ++ text') w w'' := by
  obtain ⟨handle, d, hopen⟩ := h.opened
  refine ⟨hw'.policy.trans hw.policy, ?_, hw.beside.trans hopen hw'.beside⟩
  rw [List.length_append, ← Nat.add_assoc, ← writeAt_append]
  exact hw'.sink

theorem Wrote.refl (h : Sink w fd content offset) : Wrote fd content offset [] w w :=
  ⟨rfl, by simpa [writeAt] using h, .refl fd w⟩

theorem fputc_wrote (h : Sink w fd content offset) (b : UInt8) :
    ∃ w', (∀ m, (fputc (widen b) (some fd)).run { w with mem := m } =
        .ok 0 { w' with mem := m }) ∧ Wrote fd content offset [b] w w' := by
  have hlt := b.toNat_lt
  have hrange : 0 ≤ (widen b).toInt ∧ (widen b).toInt < 256 := by
    rw [widen_toInt]
    omega
  obtain ⟨w', hrun, _, hsink, hbeside⟩ := fputc_run h hrange
  rw [byte_widen] at hsink
  have hpolicy := (policy_discipline _).fputc (widen b) (some fd) w rfl
  rw [hrun] at hpolicy
  exact ⟨w', (blind_fputc _ _).run hrun, hpolicy, hsink, hbeside⟩

theorem fwriteFrom_wrote (h : Sink w fd content offset)
    (hfit : text.length < 0x10000000000000000) :
    ∃ w', (∀ m, (fwriteFrom (fun _ => pure text) 1 text.length (some fd)).run
        { w with mem := m } = .ok text.length { w' with mem := m }) ∧
      Wrote fd content offset text w w' := by
  obtain ⟨w', hwrite, _, hsink, hbeside⟩ := h.write_looked text
  have htext : (onMem (pure text)).run (looked w) = .ok text (looked w) := rfl
  have hrun : (fwriteFrom (fun _ => pure text) 1 text.length (some fd)).run w =
      .ok text.length w' := by
    rw [fwriteFrom, bind_ok (lookup_some fd w), bind_ok (mul_run _ (by rwa [Nat.mul_one])),
      bind_ok htext, bind_ok hwrite]
    rfl
  have hpolicy := (policy_discipline _).fwriteFrom (fun _ => pure text) 1 text.length (some fd) w
    rfl
  rw [hrun] at hpolicy
  exact ⟨w', (blind_fwriteFrom text 1 text.length _).run hrun, hpolicy, hsink, hbeside⟩

/-- The switch on the conversion character of test_fprintf, which ends before `fmt[i]`. -/
def formatSwitch (stream : Option Stream) (i : Nat) (ch : UInt8) : Run World (Turn Nat Unit) := do
  if ch = 0 then
    return .done ()
  else if ch = 37 then
    let _ ← fputc 37 stream
    return .next i
  else
    let text := rendering (← get).kernel.policy.printed ch
    let _ ← fwriteFrom (fun _ => pure text) 1 text.length stream
    return .next i

/-- The body of the loop of test_fprintf. -/
def formatRound (stream : Option Stream) (fmt i : Nat) : Run World (Turn Nat Unit) := do
  if (← onMem (load fmt i)) != 0 then
    let ch ← onMem (load fmt i)
    let i ← add i 1
    if ch != 37 then
      let _ ← fputc (widen ch) stream
      return .next i
    let ch ← onMem (load fmt i)
    let i ← add i 1
    formatSwitch stream i ch
  else
    return .done ()

theorem test_fprintf_eq (stream : Option Stream) (fmt : Nat) :
    test_fprintf stream fmt = (do
      let _ : Unit ← while_ 0 (formatRound stream fmt)
      return 0) := rfl

theorem formatRound_end (h : w.mem.cell (fmt + i) = some 0) :
    (formatRound stream fmt i).run w = .ok (.done ()) w := by
  rw [formatRound, bind_ok (onMem_same (load_run h))]
  rfl

theorem formatRound_plain (h : w.mem.cell (fmt + i) = some ch) (h0 : ch ≠ 0) (hmark : ch ≠ 37)
    (hi : i + 1 < 0x10000000000000000) {r : Int32}
    (hrun : (fputc (widen ch) stream).run w = .ok r w') :
    (formatRound stream fmt i).run w = .ok (.next (i + 1)) w' := by
  have hload := onMem_same (load_run h)
  rw [formatRound, bind_ok hload, if_pos (by simpa using h0), bind_ok hload, bind_ok (add_run w hi),
    if_pos (by simpa using hmark), bind_ok hrun]
  rfl

theorem formatRound_mark (h : w.mem.cell (fmt + i) = some 37)
    (h₁ : w.mem.cell (fmt + (i + 1)) = some ch) (hi : i + 1 + 1 < 0x10000000000000000) :
    (formatRound stream fmt i).run w = (formatSwitch stream (i + 1 + 1) ch).run w := by
  have hload := onMem_same (load_run h)
  rw [formatRound, bind_ok hload, if_pos (by decide), bind_ok hload, bind_ok (add_run w (by omega)),
    if_neg (by decide), bind_ok (onMem_same (load_run h₁)), bind_ok (add_run w hi)]

/-- What a directive stands for. -/
def directive (printed : UInt8 → List UInt8) (ch : UInt8) : List UInt8 :=
  if ch = 37 then [37] else rendering printed ch

/-- What the source prints for each conversion character: `-5`, `5`, the two floats, the address,
`A`, `dummy`, a percent sign, and `(unknown: %x)` for any other `x`. -/
inductive Renders (printed : UInt8 → List UInt8) : UInt8 → List UInt8 → Prop where
  | signed {ch : UInt8} : ch = 100 ∨ ch = 105 → Renders printed ch [45, 53]
  | unsigned {ch : UInt8} : ch = 117 ∨ ch = 120 ∨ ch = 88 → Renders printed ch [53]
  | exponent {ch : UInt8} : ch = 101 ∨ ch = 69 → Renders printed ch (printed 101)
  | decimal {ch : UInt8} : ch = 102 ∨ ch = 70 → Renders printed ch (printed 102)
  | pointer : Renders printed 112 (printed 112)
  | character : Renders printed 99 [65]
  | string : Renders printed 115 [100, 117, 109, 109, 121]
  | percent : Renders printed 37 [37]
  | unknown {ch : UInt8} :
      ch ∉ [100, 105, 117, 120, 88, 101, 69, 102, 70, 112, 99, 115, 37] →
      Renders printed ch [40, 117, 110, 107, 110, 111, 119, 110, 58, 32, 37, ch, 41]

/-- Every conversion character has a text. -/
theorem renders_total (printed : UInt8 → List UInt8) (ch : UInt8) :
    ∃ text, Renders printed ch text := by
  by_cases h : ch ∈ [100, 105, 117, 120, 88, 101, 69, 102, 70, 112, 99, 115, 37]
  · simp only [List.mem_cons, List.not_mem_nil, or_false] at h
    rcases h with hd | hd | hu | hu | hu | he | he | hf | hf | rfl | rfl | rfl | rfl
    · exact ⟨_, .signed (Or.inl hd)⟩
    · exact ⟨_, .signed (Or.inr hd)⟩
    · exact ⟨_, .unsigned (Or.inl hu)⟩
    · exact ⟨_, .unsigned (Or.inr (Or.inl hu))⟩
    · exact ⟨_, .unsigned (Or.inr (Or.inr hu))⟩
    · exact ⟨_, .exponent (Or.inl he)⟩
    · exact ⟨_, .exponent (Or.inr he)⟩
    · exact ⟨_, .decimal (Or.inl hf)⟩
    · exact ⟨_, .decimal (Or.inr hf)⟩
    · exact ⟨_, .pointer⟩
    · exact ⟨_, .character⟩
    · exact ⟨_, .string⟩
    · exact ⟨_, .percent⟩
  · exact ⟨_, .unknown h⟩

/-- The switch writes what the table has. -/
theorem Renders.directive_eq {printed : UInt8 → List UInt8} {ch : UInt8} {text : List UInt8}
    (h : Renders printed ch text) : directive printed ch = text := by
  cases h with
  | signed h => rcases h with rfl | rfl <;> rfl
  | unsigned h => rcases h with rfl | rfl | rfl <;> rfl
  | exponent h => rcases h with rfl | rfl <;> rfl
  | decimal h => rcases h with rfl | rfl <;> rfl
  | pointer | character | string | percent => rfl
  | unknown h =>
    simp only [List.mem_cons, List.not_mem_nil, or_false, not_or] at h
    simp [directive, rendering, bytes, h]

theorem renders_iff (printed : UInt8 → List UInt8) (ch : UInt8) (text : List UInt8) :
    Renders printed ch text ↔ directive printed ch = text := by
  refine ⟨Renders.directive_eq, ?_⟩
  rintro rfl
  obtain ⟨text, h⟩ := renders_total printed ch
  rwa [h.directive_eq]

/-- Every rendering fits the buffer of test_fprintf, which has 64 bytes. -/
def Buffered (printed : UInt8 → List UInt8) : Prop := ∀ ch, (printed ch).length ≤ 64

theorem Renders.length_le {printed : UInt8 → List UInt8} {ch : UInt8} {text : List UInt8}
    (hbuf : Buffered printed) (h : Renders printed ch text) : text.length ≤ 64 := by
  cases h with
  | exponent _ => exact hbuf 101
  | decimal _ => exact hbuf 102
  | pointer => exact hbuf 112
  | signed _ | unsigned _ | character | string | percent => decide
  | unknown _ => exact Nat.le_add_left 13 51

theorem formatSwitch_wrote (h : Sink w fd content offset) (hbuf : Buffered w.kernel.policy.printed)
    (h0 : ch ≠ 0) (i : Nat) :
    ∃ w', (∀ m, (formatSwitch (some fd) i ch).run { w with mem := m } =
        .ok (.next i) { w' with mem := m }) ∧
      Wrote fd content offset (directive w.kernel.policy.printed ch) w w' := by
  unfold directive
  by_cases hmark : ch = 37
  · obtain ⟨w', hrun, hwrote⟩ := fputc_wrote h 37
    refine ⟨w', fun m => ?_, ?_⟩
    · rw [formatSwitch, if_neg h0, if_pos hmark]
      exact (bind_ok (hrun m) _).trans rfl
    · rwa [if_pos hmark]
  · have hfit : (rendering w.kernel.policy.printed ch).length ≤ 64 := by
      have hrenders := (renders_iff w.kernel.policy.printed ch _).mpr rfl
      rw [directive, if_neg hmark] at hrenders
      exact hrenders.length_le hbuf
    obtain ⟨w', hrun, hwrote⟩ := fwriteFrom_wrote h (Nat.lt_of_le_of_lt hfit (by decide))
    refine ⟨w', fun m => ?_, ?_⟩
    · rw [formatSwitch, if_neg h0, if_neg hmark]
      exact (bind_ok (hrun m) _).trans rfl
    · rwa [if_neg hmark]

/-- From the byte `i` of the format, which begins the rest `t`, the loop writes the text. -/
def Scans (w : World) (fd : Stream) (content : List UInt8) (offset fmt i : Nat)
    (t text : List UInt8) : Prop :=
  ∃ w', (∀ m n, 0 < fmt → StringAt m (fmt + i) t → t.length < n →
      (loop .exhausted (formatRound (some fd) fmt) n i).run { w with mem := m } =
        .ok () { w' with mem := m }) ∧
    Wrote fd content offset text w w'

/-- A round that leaves the loop. -/
theorem Scans.last {t : List UInt8} (h : Sink w fd content offset)
    (hround : ∀ m, 0 < fmt → StringAt m (fmt + i) t →
      (formatRound (some fd) fmt i).run { w with mem := m } = .ok (.done ()) { w with mem := m }) :
    Scans w fd content offset fmt i t [] :=
  ⟨w, fun m _ hfmt hs hn => loop_done (Nat.zero_lt_of_lt hn) (hround m hfmt hs), .refl h⟩

/-- A round that writes the text of a piece and ends behind the piece. -/
theorem Scans.first (piece : List UInt8) {t text' : List UInt8} (h : Sink w fd content offset)
    (hne : piece ≠ []) (hwrote : Wrote fd content offset text w w')
    (hround : ∀ m, 0 < fmt → StringAt m (fmt + i) (piece ++ t) →
      (formatRound (some fd) fmt i).run { w with mem := m } =
        .ok (.next (i + piece.length)) { w' with mem := m })
    (hrest : Scans w' fd (writeAt content offset text) (offset + text.length) fmt
      (i + piece.length) t text') :
    Scans w fd content offset fmt i (piece ++ t) (text ++ text') := by
  obtain ⟨w'', hloop, hwrote'⟩ := hrest
  refine ⟨w'', fun m n hfmt hs hn => ?_, hwrote.trans h hwrote'⟩
  have hpos := List.length_pos_iff.mpr hne
  rw [List.length_append] at hn
  obtain ⟨n, rfl⟩ : ∃ k, n = k + 1 := ⟨n - 1, by omega⟩
  rw [loop_next (hround m hfmt hs)]
  apply hloop m n hfmt _ (by omega)
  rw [← Nat.add_assoc]
  exact hs.right

/-- The loop from a place in the format where a piece begins. The induction is on the pieces that
are left. -/
theorem pieces_run (fmt : Nat) {t : List UInt8} {ps : List (Piece UInt8)} (hps : Decomposes 37 t ps) :
    ∀ {w : World} {content : List UInt8} {offset : Nat}, 0 ∉ t → Sink w fd content offset →
      Buffered w.kernel.policy.printed → ∀ i,
        Scans w fd content offset fmt i t (expand (directive w.kernel.policy.printed) ps) := by
  induction hps with
  | nil =>
    intro w content offset _ h _ i
    exact .last h fun m _ hs => formatRound_end (w := { w with mem := m }) hs.terminator
  | @plain ch t ps hmark _ ih =>
    intro w content offset hzero h hbuf i
    rw [List.mem_cons, not_or] at hzero
    obtain ⟨w₁, hput, hwrote⟩ := fputc_wrote h ch
    rw [← hwrote.policy] at hbuf ⊢
    refine .first [ch] h (List.cons_ne_nil _ _) hwrote (fun m hfmt hs => ?_)
      (ih hzero.2 hwrote.sink hbuf (i + 1))
    obtain ⟨hc, h0, hrest⟩ := hs.next
    have hbound := hrest.bounds.2
    exact formatRound_plain hc h0 hmark (by omega) (hput m)
  | @directive ch t ps _ ih =>
    intro w content offset hzero h hbuf i
    simp only [List.mem_cons, not_or] at hzero
    obtain ⟨w₁, hswitch, hwrote⟩ := formatSwitch_wrote h hbuf (Ne.symm hzero.2.1) (i + 1 + 1)
    rw [← hwrote.policy] at hbuf hwrote ⊢
    refine .first [37, ch] h (List.cons_ne_nil _ _) hwrote (fun m hfmt hs => ?_)
      (ih hzero.2.2 hwrote.sink hbuf (i + 1 + 1))
    obtain ⟨hc, _, hs₁⟩ := hs.next
    obtain ⟨hc₁, _, hrest⟩ := hs₁.next
    have hbound := hrest.bounds.2
    rw [formatRound_mark (w := { w with mem := m }) hc hc₁ (by omega), hswitch]
    rfl
  | trailing =>
    intro w content offset _ h _ i
    refine .last h fun m hfmt hs => ?_
    obtain ⟨hc, _, hend⟩ := hs.next
    have hbound := hend.bounds.2
    rw [formatRound_mark (w := { w with mem := m }) hc hend.terminator (by omega)]
    rfl

/-- test_fprintf of the format `s` at `fmt` writes the text at the cursor and returns 0, whatever
memory holds beside the format. -/
def Prints (w : World) (fd : Stream) (content : List UInt8) (offset fmt : Nat)
    (s text : List UInt8) : Prop :=
  ∃ w', (∀ m, StringAt m fmt s →
      (test_fprintf (some fd) fmt).run { w with mem := m } = .ok 0 { w' with mem := m }) ∧
    Wrote fd content offset text w w'

theorem test_fprintf_prints {s : List UInt8} {ps : List (Piece UInt8)} (h : Sink w fd content offset)
    (hbuf : Buffered w.kernel.policy.printed) (hs : 0 ∉ s) (hps : Decomposes 37 s ps) (fmt : Nat) :
    Prints w fd content offset fmt s (expand (directive w.kernel.policy.printed) ps) := by
  obtain ⟨w', hloop, hwrote⟩ := pieces_run fmt hps hs h hbuf 0
  refine ⟨w', fun m hm => ?_, hwrote⟩
  obtain ⟨hpos, hend⟩ := hm.bounds
  rw [test_fprintf_eq, while_, bind_ok (hloop m _ hpos hm (by omega))]
  rfl

end Pieces

/-- A format falls into pieces in one way, and what is written is what the pieces stand for, where
every directive stands for the text that the table has for it. So a text with doubled percent signs
is written as it was, and a format behind a complete one adds its own output. -/
structure FormatLaw (w : World) (fd : Stream) (content : List UInt8) (offset fmt : Nat) : Prop where
  table : ∀ ch text, Renders w.kernel.policy.printed ch text ↔
    directive w.kernel.policy.printed ch = text
  pieces : ∀ s, 0 ∉ s → ∃ ps, Decomposes 37 s ps ∧ (∀ qs, Decomposes 37 s qs → qs = ps) ∧
    Prints w fd content offset fmt s (expand (directive w.kernel.policy.printed) ps)
  doubled : ∀ s, 0 ∉ s → Prints w fd content offset fmt (double 37 s) s
  appended : ∀ f₁ f₂ ps₁ ps₂, 0 ∉ f₁ ++ f₂ → Decomposes 37 f₁ ps₁ → Decomposes 37 f₂ ps₂ →
    Closed ps₁ → Prints w fd content offset fmt (f₁ ++ f₂)
      (expand (directive w.kernel.policy.printed) ps₁ ++
        expand (directive w.kernel.policy.printed) ps₂)

theorem not_mem_double {s : List UInt8} (hs : 0 ∉ s) : 0 ∉ double 37 s := by
  intro hmem
  obtain ⟨c, hc, hzero⟩ := List.mem_flatMap.mp hmem
  obtain rfl : c = 0 := by
    split at hzero
    · simpa [eq_comm] using hzero
    · simpa [eq_comm] using hzero
  exact hs hc

theorem test_fprintf_law {w : World} {fd : Stream} {content : List UInt8} {offset : Nat}
    (h : Sink w fd content offset) (hbuf : Buffered w.kernel.policy.printed) (fmt : Nat) :
    FormatLaw w fd content offset fmt := by
  constructor
  · exact renders_iff w.kernel.policy.printed
  · intro s hs
    obtain ⟨ps, hps, honly⟩ := decomposes_once 37 s
    exact ⟨ps, hps, honly, test_fprintf_prints h hbuf hs hps fmt⟩
  · intro s hs
    have hprints := test_fprintf_prints h hbuf (not_mem_double hs) (decomposes_double 37 s) fmt
    rwa [expand_double rfl] at hprints
  · intro f₁ f₂ ps₁ ps₂ hs h₁ h₂ hclosed
    rw [← expand_append]
    exact test_fprintf_prints h hbuf hs (h₁.append hclosed h₂) fmt

theorem test_fprintf_law_example :
    FormatLaw (readyWorld stringMem []) .stdout_file [] 0 0x10000 :=
  test_fprintf_law (ready_sink stringMem []) (fun _ => Nat.le_add_left 1 63) 0x10000

/-- The format "a%" with nothing behind its terminator. -/
example : (after ((test_fprintf (some .stdout_file) 1).run
    (readyWorld (image 1 [97, 37, 0] Nat.one_pos (by decide)) []))).kernel.contents 1 = [97] := by
  decide

end Stdio
