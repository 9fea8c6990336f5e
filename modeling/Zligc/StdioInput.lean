import Zligc.StdioStream

/-!
# Reading a stream

fgetc discards the number of bytes it has read, so at the end of the stream it
returns the byte of its undefined buffer; fgets goes on storing that byte and
never returns null.
-/
namespace Stdio

open Effect CellMemory Zig Zligc OsFile

theorem widen_ne_EOF (b : UInt8) : widen b ≠ EOF := by
  intro h
  have hint := congrArg Int32.toInt h
  rw [widen_toInt] at hint
  have heof : EOF.toInt = -1 := by decide
  omega

section Input

variable {w : World} {fd : Stream} {rest : List UInt8}

/-- fgetc takes the next byte, or returns the undefined byte at the end of the stream. -/
theorem fgetc_takes (h : Readable w fd rest) (hok : Working w 1) :
    ∃ w', (fgetc (some fd)).run w = .ok (widen (rest.headD w.undefinedByte)) w' ∧
      w'.mem = w.mem ∧ Took fd 1 (rest.take 1).length w w' := by
  obtain ⟨w', hread, hmem, htook⟩ :=
    h.looked.read_one ((Took.looked fd w).working (by rwa [Nat.zero_add]))
  have hall := Took.trans_readable h (Took.looked fd w) htook
  rw [Nat.zero_add, Nat.zero_add] at hall
  refine ⟨w', ?_, by rw [hmem, looked_mem], hall⟩
  rw [fgetc, bind_ok (lookup_some fd w), bind_ok hread]
  cases rest with
  | nil => simp [hall.undefinedByte]
  | cons b rest => simp

theorem drop_take_length (rest : List UInt8) (k : Nat) :
    rest.drop (rest.take k).length = rest.drop k := by
  rw [List.length_take]
  rcases Nat.le_total k rest.length with hle | hge
  · rw [Nat.min_eq_left hle]
  · rw [Nat.min_eq_right hge, List.drop_length, List.drop_eq_nil_of_le hge]

/-- The bytes taken from a stream one after the other. -/
theorem take_succ_length (rest : List UInt8) (k : Nat) :
    (rest.take (1 + k)).length = (rest.take 1).length + (rest.tail.take k).length := by
  cases rest with
  | nil => simp
  | cons b rest =>
    simp only [List.length_take, List.length_cons, List.tail_cons]
    omega

theorem fgetc_run (h : Source w fd rest) :
    ∃ w', (fgetc (some fd)).run w = .ok (widen (rest.headD w.undefinedByte)) w' ∧
      w'.mem = w.mem ∧ w'.undefinedByte = w.undefinedByte ∧ Source w' fd rest.tail ∧
      Beside fd w w' := by
  obtain ⟨w', hrun, hmem, htook⟩ := fgetc_takes h.readable (h.working 1)
  have hsource := htook.source h
  rw [drop_take_length, List.drop_one] at hsource
  exact ⟨w', hrun, hmem, htook.undefinedByte, hsource, htook.beside⟩

/-- What fgets stores when it may store `n` bytes. -/
def lineOf (undefinedByte : UInt8) : List UInt8 → Nat → List UInt8
  | _, 0 => []
  | rest, n + 1 =>
    if rest.headD undefinedByte = 10 then [10]
    else rest.headD undefinedByte :: lineOf undefinedByte rest.tail n

theorem lineOf_length_le (c : UInt8) (rest : List UInt8) (n : Nat) :
    (lineOf c rest n).length ≤ n := by
  induction n generalizing rest with
  | zero => simp [lineOf]
  | succ n ih =>
    rw [lineOf]
    split
    · simp
    · have hle := ih rest.tail
      simpa using hle

/-- One round of fgets takes one byte and stores it. -/
theorem fgetsRound_takes {s i : Nat} (size : Int32) (h : Readable w fd rest) (hok : Working w 1)
    (hi : i + 1 < size.toInt.toNat) (hmap : (w.mem.cell (s + i)).isSome) :
    ∃ w', (fgetsRound s size (some fd) i).run w =
        .ok (if rest.headD w.undefinedByte = 10 then .done (i + 1) else .next (i + 1)) w' ∧
      w'.mem = write w.mem (s + i) [rest.headD w.undefinedByte] ∧
      Took fd 1 (rest.take 1).length w w' := by
  obtain ⟨w', hget, hmem, htook⟩ := fgetc_takes h hok
  have hsize : 0 ≤ size.toInt := by omega
  have hsub : 1 ≤ size.toInt.toNat := by omega
  have hlt : i < size.toInt.toNat - 1 := by omega
  have hadd : i + 1 < 0x10000000000000000 := by
    have hmax := size.toInt_lt
    omega
  have hten : widen (rest.headD w.undefinedByte) = 10 ↔ rest.headD w.undefinedByte = 10 :=
    widen_inj (c := 10)
  rw [← hmem] at hmap
  generalize rest.headD w.undefinedByte = b at hget hten ⊢
  refine ⟨{ w' with mem := write w'.mem (s + i) [b] }, ?_, by rw [hmem], htook.memory _⟩
  rw [fgetsRound, bind_ok (castUsize_run w hsize), bind_ok (sub_run w hsub), if_pos hlt,
    bind_ok hget, if_neg (widen_ne_EOF _)]
  by_cases hnl : b = 10
  · rw [if_pos (hten.mpr hnl)]
    simp [hnl, hmap, hadd]
  · rw [if_neg (fun he => hnl (hten.mp he))]
    simp [hnl, hmap, hadd]

/-- The rounds of fgets from the byte number `i` on, with room for `n` more. -/
theorem fgets_rounds {s i n N : Nat} (size : Int32) (h : Readable w fd rest)
    (hok : Working w (lineOf w.undefinedByte rest n).length)
    (hn : i + n + 1 = size.toInt.toNat) (hN : n < N) (hmap : Mapped w.mem (s + i) n) :
    ∃ w', (loop .exhausted (fgetsRound s size (some fd)) N i).run w =
        .ok (i + (lineOf w.undefinedByte rest n).length) w' ∧
      w'.mem = write w.mem (s + i) (lineOf w.undefinedByte rest n) ∧
      Took fd (lineOf w.undefinedByte rest n).length
        (rest.take (lineOf w.undefinedByte rest n).length).length w w' := by
  induction n generalizing w rest i N with
  | zero =>
    have hsize : 0 ≤ size.toInt := by omega
    have hsub : 1 ≤ size.toInt.toNat := by omega
    have hge : ¬ i < size.toInt.toNat - 1 := by omega
    refine ⟨w, loop_done hN ?_, by simp [lineOf], by simpa [lineOf] using Took.refl fd w⟩
    rw [fgetsRound, bind_ok (castUsize_run w hsize), bind_ok (sub_run w hsub), if_neg hge]
    rfl
  | succ n ih =>
    obtain ⟨N, rfl⟩ : ∃ M, N = M + 1 := ⟨N - 1, by omega⟩
    have hfirst : Working w 1 := by
      intro j hj
      apply hok j
      rw [lineOf]
      split <;> simp <;> omega
    obtain ⟨w₁, hround, hmem, htook⟩ :=
      fgetsRound_takes (s := s) size h hfirst (by omega) (hmap 0 (by omega))
    rw [lineOf] at hok ⊢
    split at hround
    · rename_i hnl
      rw [if_pos hnl]
      exact ⟨w₁, loop_done (by omega) hround, by rw [hmem, hnl], htook⟩
    · rename_i hnl
      rw [if_neg hnl, List.length_cons, Nat.add_comm] at hok
      rw [if_neg hnl, loop_next hround]
      have hrest : Mapped w₁.mem (s + (i + 1)) n := by
        rw [hmem]
        exact (hmap.part (by omega) (by omega)).write _ _
      have hread := htook.readable h
      have hok₁ := htook.working hok
      rw [drop_take_length, List.drop_one] at hread
      rw [← htook.undefinedByte] at hok₁
      obtain ⟨w₂, hrun, hmem₂, htook₂⟩ := ih hread hok₁ (by omega) (by omega : n < N) hrest
      rw [htook.undefinedByte] at hrun hmem₂ htook₂
      refine ⟨w₂, ?_, ?_, ?_⟩
      · rw [hrun, List.length_cons]
        congr 1
        omega
      · rw [hmem₂, hmem, ← Nat.add_assoc]
        exact (write_append w.mem (s + i) [_] _).symm
      · have hall := Took.trans_readable h htook htook₂
        rw [← take_succ_length] at hall
        rwa [List.length_cons, Nat.add_comm]

/-- fgets stores one line and its terminator, and takes the line from the stream. -/
theorem fgets_takes {s : Nat} (size : Int32) (h : Readable w fd rest) (hsize : 0 < size.toInt)
    (hok : Working w (lineOf w.undefinedByte rest (size.toInt.toNat - 1)).length)
    (hmap : Mapped w.mem s size.toInt.toNat) :
    ∃ w', (fgets s size (some fd)).run w = .ok (some s) w' ∧
      w'.mem = write w.mem s (lineOf w.undefinedByte rest (size.toInt.toNat - 1) ++ [0]) ∧
      Took fd (lineOf w.undefinedByte rest (size.toInt.toNat - 1)).length
        (rest.take (lineOf w.undefinedByte rest (size.toInt.toNat - 1)).length).length w w' := by
  have hmax := size.toInt_lt
  obtain ⟨w', hrun, hmem, htook⟩ := fgets_rounds (s := s) (i := 0)
    (n := size.toInt.toNat - 1) (N := 0x10000000000000000) size h hok (by omega) (by omega)
    (hmap.part (by omega) (by omega))
  have hle := lineOf_length_le w.undefinedByte rest (size.toInt.toNat - 1)
  simp only [Nat.zero_add, Nat.add_zero] at hrun hmem
  generalize lineOf w.undefinedByte rest (size.toInt.toNat - 1) = line at hrun hmem htook hle ⊢
  have hcell : (w'.mem.cell (s + line.length)).isSome := by
    rw [hmem, write_mapped]
    exact hmap _ (by omega)
  refine ⟨{ w' with mem := write w'.mem (s + line.length) [0] }, ?_, ?_, htook.memory _⟩
  · rw [fgets, while_, bind_ok hrun]
    simp [hcell]
  · rw [hmem, write_append]

theorem fgets_run {s : Nat} (size : Int32) (h : Source w fd rest) (hsize : 0 < size.toInt)
    (hmap : Mapped w.mem s size.toInt.toNat) :
    ∃ w', (fgets s size (some fd)).run w = .ok (some s) w' ∧
      w'.mem = write w.mem s (lineOf w.undefinedByte rest (size.toInt.toNat - 1) ++ [0]) ∧
      w'.undefinedByte = w.undefinedByte ∧
      Source w' fd (rest.drop (lineOf w.undefinedByte rest (size.toInt.toNat - 1)).length) ∧
      Beside fd w w' := by
  obtain ⟨w', hrun, hmem, htook⟩ := fgets_takes (s := s) size h.readable hsize (h.working _) hmap
  have hsource := htook.source h
  rw [drop_take_length] at hsource
  exact ⟨w', hrun, hmem, htook.undefinedByte, hsource, htook.beside⟩

end Input

/-- Runs of the loop that calls fgets until it returns null, with the strings it found in the
buffer. -/
inductive Drained (buf : Nat) (size : Int32) (fd : Stream) :
    World → List (List UInt8) → World → Prop where
  | stop {w w' : World} : (fgets buf size (some fd)).run w = .ok none w' →
      Drained buf size fd w [] w'
  | round {w w' w'' : World} {p : Nat} {s : List UInt8} {strings : List (List UInt8)} :
      (fgets buf size (some fd)).run w = .ok (some p) w' → StringAt w'.mem buf s →
      Drained buf size fd w' strings w'' → Drained buf size fd w (s :: strings) w''

theorem fgets_not_null {buf : Nat} {size : Int32} {stream : Option Stream} {w w' : World} :
    (fgets buf size stream).run w ≠ .ok none w' := by
  have hsome : Triple (fun _ => True) (fgets buf size stream) (fun r _ => r = some buf)
      (fun _ => True) := by
    refine triple_bind (Q := fun _ _ => True) ?_ fun i => ?_
    · exact triple_moves (M := fun _ _ => True) (fun _ => trivial) (fun _ _ _ _ _ => trivial)
        fun _ _ _ _ => trivial
    · refine triple_bind (Q := fun _ _ => True) ?_ fun _ => triple_pure fun _ _ => rfl
      exact triple_moves (M := fun _ _ => True) (fun _ => trivial) (fun _ _ _ _ _ => trivial)
        fun _ _ _ _ => trivial
  intro h
  have hrun := hsome w trivial
  rw [h] at hrun
  cases hrun

/-- The loop has no run that ends. -/
theorem not_drained {buf : Nat} {size : Int32} {fd : Stream} {w w' : World}
    {strings : List (List UInt8)} : ¬ Drained buf size fd w strings w' := by
  intro h
  induction h with
  | stop h => exact fgets_not_null h
  | round _ _ _ ih => exact ih

/-- The calls that read one byte of a stream. -/
inductive Reads (fd : Stream) : Run World Int32 → Prop where
  | fgetc : Reads fd (fgetc (some fd))
  | getc : Reads fd (getc (some fd))
  | _IO_getc : Reads fd (_IO_getc (some fd))
  | getchar : fd = .stdin_file → Reads fd getchar

theorem Reads.eq_fgetc {fd : Stream} {read : Run World Int32} (h : Reads fd read) :
    read = Stdio.fgetc (some fd) := by
  cases h with
  | getchar h => rw [h]; rfl
  | _ => rfl

section Draining

variable {w : World} {fd : Stream} {rest : List UInt8} {read : Run World Int32}

/-- Reading byte by byte returns the bytes in order, and from then on the undefined byte. -/
theorem reads_run (h : Source w fd rest) (hread : Reads fd read) (n : Nat) :
    ∃ w', (repeated read n).run w =
      .ok ((rest.take n).map widen ++
        List.replicate (n - rest.length) (widen w.undefinedByte)) w' := by
  rw [hread.eq_fgetc]
  induction n generalizing w rest with
  | zero => exact ⟨w, by simp [repeated]⟩
  | succ n ih =>
    obtain ⟨w₁, hget, _, hbyte, hsource, _⟩ := fgetc_run h
    obtain ⟨w₂, hrun⟩ := ih hsource
    rw [hbyte] at hrun
    refine ⟨w₂, (repeated_succ hget hrun).trans ?_⟩
    cases rest with
    | nil => simp [List.replicate_succ]
    | cons b rest => simp

/-- With a buffer in memory the loop goes on for ever. -/
theorem lines_run {buf : Nat} {size : Int32} (h : Source w fd rest) (hsize : 0 < size.toInt)
    (hmap : Mapped w.mem buf size.toInt.toNat) (n : Nat) :
    ∃ w', (repeated (fgets buf size (some fd)) n).run w =
      .ok (List.replicate n (some buf)) w' := by
  induction n generalizing w rest with
  | zero => exact ⟨w, rfl⟩
  | succ n ih =>
    obtain ⟨w₁, hget, hmem, _, hsource, _⟩ := fgets_run size h hsize hmap
    obtain ⟨w₂, hrun⟩ := ih hsource (hmem ▸ hmap.write _ _)
    exact ⟨w₂, repeated_succ hget hrun⟩

end Draining

/-- Draining a stream, whatever is left in it, neither ends with fgets nor is told its end by fgetc:
the loop runs on for ever, and behind the bytes of the stream fgetc returns the undefined byte and
never EOF. -/
theorem drain_never {w : World} {fd : Stream} {rest : List UInt8} {buf : Nat} {size : Int32}
    {read : Run World Int32} (h : Source w fd rest) (hsize : 2 ≤ size.toInt)
    (hmap : Mapped w.mem buf size.toInt.toNat) (hread : Reads fd read) :
    (¬ ∃ strings w', Drained buf size fd w strings w' ∧ strings.flatten = rest) ∧
    (¬ ∀ n, value? ((repeated read n).run w) =
      some ((rest.take n).map widen ++ List.replicate (n - rest.length) EOF)) ∧
    (∀ n, value? ((repeated (fgets buf size (some fd)) n).run w) =
      some (List.replicate n (some buf))) ∧
    ∀ n, value? ((repeated read n).run w) =
      some ((rest.take n).map widen ++
        List.replicate (n - rest.length) (widen w.undefinedByte)) := by
  have hreads : ∀ n, value? ((repeated read n).run w) =
      some ((rest.take n).map widen ++
        List.replicate (n - rest.length) (widen w.undefinedByte)) := by
    intro n
    obtain ⟨w', hrun⟩ := reads_run h hread n
    rw [hrun, value?_ok]
  refine ⟨?_, ?_, ?_, hreads⟩
  · rintro ⟨strings, w', hdrained, _⟩
    exact not_drained hdrained
  · intro heof
    have hlast := (hreads (rest.length + 1)).symm.trans (heof (rest.length + 1))
    rw [Option.some.injEq, List.append_cancel_left_eq, Nat.add_sub_cancel_left] at hlast
    exact widen_ne_EOF w.undefinedByte (by simpa using hlast)
  · intro n
    obtain ⟨w', hrun⟩ := lines_run h (by omega) hmap n
    rw [hrun, value?_ok]

theorem drain_never_example :
    (¬ ∃ strings w', Drained 1 4 .stdin_file (readyWorld firstMem [104, 10]) strings w' ∧
      strings.flatten = [104, 10]) ∧
    (¬ ∀ n, value? ((repeated getchar n).run (readyWorld firstMem [104, 10])) =
      some (([104, 10].take n).map widen ++ List.replicate (n - [104, 10].length) EOF)) ∧
    (∀ n, value? ((repeated (fgets 1 4 (some .stdin_file)) n).run (readyWorld firstMem [104, 10])) =
      some (List.replicate n (some 1))) ∧
    ∀ n, value? ((repeated getchar n).run (readyWorld firstMem [104, 10])) =
      some (([104, 10].take n).map widen ++ List.replicate (n - [104, 10].length)
        (widen (readyWorld firstMem [104, 10]).undefinedByte)) :=
  drain_never (ready_source _ _) (by decide) (by decide) (.getchar rfl)

/-- At the end of the input getchar returns the undefined byte 0xaa, and fgets its buffer. -/
theorem input_end :
    value? ((repeated getchar 1).run (readyWorld firstMem [])) = some [170] ∧
      value? ((repeated getchar 1).run (readyWorld firstMem [])) ≠
        some (([] : List UInt8).map widen ++ List.replicate 1 EOF) ∧
      value? ((fgets 1 4 (some .stdin_file)).run (readyWorld firstMem [])) = some (some 1) ∧
      ¬ ∃ strings w', Drained 1 4 .stdin_file (readyWorld firstMem []) strings w' ∧
        strings.flatten = [] := by
  refine ⟨by decide, by decide, ?_, fun h => not_drained h.choose_spec.choose_spec.1⟩
  obtain ⟨w, hrun, _⟩ := fgets_run (s := 1) 4 (ready_source firstMem []) (by decide) (by decide)
  rw [hrun, value?_ok]

end Stdio
