import Zligc.StdioAccess
import Zligc.StdioStore

/-!
# What the streams do to memory

No call of stdio.zig writes anywhere but into the buffer that fread or fgets was given, whether it
returns or faults and whatever the system does.
-/
namespace Stdio

open Effect CellMemory Zig Zligc OsFile

/-- What is kept of memory in `w` is still in memory in `w'`. -/
def Frames (kept : Nat → Prop) (w w' : World) : Prop := Retains kept w.mem w'.mem

instance (kept : Nat → Prop) : IsPreorder Mem (Retains kept) where
  refl := .refl kept
  trans _ _ _ h h' := h.trans h'

instance (kept : Nat → Prop) : IsPreorder World (Frames kept) where
  refl w := .refl kept w.mem
  trans _ _ _ h h' := Retains.trans h h'

/-- The bytes that a call may write. -/
def Call.Fills : Call → Nat → Prop
  | .fread buffer size count _, p => buffer ≤ p ∧ p < buffer + size * count
  | .fgets s size _, p => s ≤ p ∧ p < s + size.toInt.toNat
  | _, _ => False

section Memories

variable {kept : Nat → Prop} {α : Type}

theorem reading_retains {x : Run Mem α} (hx : Moves Eq x) : Moves (Retains kept) x := by
  intro m
  rw [← hx m]
  exact .refl kept m

theorem store_retains {p i : Nat} (h : ¬ kept (p + i)) (b : UInt8) :
    Moves (Retains kept) (store p i b : Run Mem Unit) := by
  intro m
  by_cases hm : (m.cell (p + i)).isSome
  · rw [store_run b hm]
    have hone : [b].length ≤ 1 := Nat.le_refl 1
    refine Retains.write hone (fun j hj => ?_) m
    obtain rfl : j = 0 := by omega
    exact h
  · rw [store_fault b (by simpa using hm)]
    exact .refl kept m

theorem fill_retains {p : Nat} {bytes : List UInt8} (h : ∀ i, i < bytes.length → ¬ kept (p + i)) :
    Moves (Retains kept) (Slice.fill p bytes) := by
  induction bytes generalizing p with
  | nil => exact moves_pure ()
  | cons b bytes ih =>
    refine moves_bind (store_retains (h 0 (Nat.succ_pos _)) b) fun _ => ih fun i hi => ?_
    have hnext := h (i + 1) (Nat.succ_lt_succ hi)
    rwa [← Nat.add_assoc, Nat.add_right_comm] at hnext

theorem set_retains {p n : Nat} (h : ∀ i, i < n → ¬ kept (p + i)) (b : UInt8) :
    Moves (Retains kept) (Slice.set p n b) := by
  refine moves_loop (fun i => ?_) _ _
  split
  · rename_i hi
    refine moves_bind (store_retains (h i hi) b) fun _ => ?_
    exact moves_bind (add_moves i 1) fun _ => moves_pure _
  · exact moves_pure _

end Memories

section Calls

variable {kept : Nat → Prop} {α β : Type}

theorem onMem_frames {x : Run Mem α} (hx : Moves (Retains kept) x) :
    Moves (Frames kept) (onMem x) := by
  intro w
  have hm := hx w.mem
  rw [run_onMem]
  cases hrun : x.run w.mem with
  | ok a m =>
    rw [hrun] at hm
    exact hm
  | error e m =>
    rw [hrun] at hm
    exact hm

theorem onMem_reads {x : Run Mem α} (hx : Moves Eq x) : Moves (Frames kept) (onMem x) :=
  onMem_frames (reading_retains hx)

theorem lookup_frames (stream : Option Stream) : Moves (Frames kept) (readOpaqueHandle stream) := by
  intro w
  have hlooked : Frames kept w (looked w) := by
    rw [Frames, looked_mem]
    exact .refl kept w.mem
  cases stream with
  | some fd =>
    rw [lookup_some]
    exact hlooked
  | none =>
    rw [lookup_none]
    exact hlooked

theorem apply_frames (fd : Stream) (f : Kernel → Int32 → Kernel × α) :
    Moves (Frames kept) (File.apply fd f) := fun w => Retains.refl kept w.mem

theorem assign_frames (fd : Stream) (file : Option Int32) :
    Moves (Frames kept) (File.assign fd file) := fun w => Retains.refl kept w.mem

theorem reserve_frames (n alignment : Nat) : Moves (Frames kept) (reserve n alignment) := by
  intro w
  rw [reserve, step_run]
  cases w.fixed.alloc n alignment with
  | none => exact Retains.refl kept w.mem
  | some r => exact Retains.refl kept w.mem

theorem onPaths_frames (ps : List (List UInt8)) (f : Kernel → Kernel × α) (failed : α) :
    Moves (Frames kept) (File.onPaths ps f failed) := by
  intro w
  rw [onPaths_run]
  split
  · exact Retains.refl kept w.mem
  · exact Retains.refl kept w.mem

/-- A check that only reads the state. -/
theorem get_frames {f : World → Run World α} (hf : ∀ w, Moves (Frames kept) (f w)) :
    Moves (Frames kept) ((get : Run World World) >>= f) := fun w => hf w w

theorem path_frames (p : Nat) : Moves (Frames kept) (onMem (Slice.toSliceConst p)) :=
  onMem_reads (toSliceConst_moves p)

theorem openInto_frames (filename : Nat) (fd : Stream) :
    Moves (Frames kept) (openInto filename fd) := by
  refine moves_bind (path_frames filename) fun path => ?_
  refine moves_bind (onPaths_frames [path] _ none) fun file => ?_
  cases file with
  | none => exact moves_pure none
  | some file => exact moves_bind (assign_frames fd _) fun _ => moves_pure _

theorem fopen_frames (filename mode : Nat) : Moves (Frames kept) (fopen filename mode) := by
  rw [fopen_eq]
  refine moves_bind (reserve_frames _ _) fun addr => ?_
  cases addr with
  | none => exact moves_pure none
  | some addr => exact moves_bind (assign_frames _ _) fun _ => openInto_frames filename _

theorem close_frames (fd : Stream) : Moves (Frames kept) (File.close fd) :=
  moves_bind (apply_frames fd _) fun file => assign_frames fd file

theorem freopen_frames (filename : Option Nat) (mode : Nat) (stream : Option Stream) :
    Moves (Frames kept) (freopen filename mode stream) := by
  cases filename with
  | none => exact moves_throw _
  | some filename =>
    rw [freopen_eq]
    refine moves_bind (lookup_frames stream) fun fd => ?_
    exact moves_bind (close_frames fd) fun _ => openInto_frames filename fd

theorem fclose_frames (stream : Option Stream) : Moves (Frames kept) (fclose stream) := by
  refine moves_bind (lookup_frames stream) fun fd => ?_
  exact moves_bind (close_frames fd) fun _ => moves_pure 0

theorem remove_frames (pathname : Option Nat) : Moves (Frames kept) (remove pathname) := by
  refine moves_bind (unwrap_moves pathname) fun p => ?_
  refine moves_bind (path_frames p) fun path => ?_
  refine moves_bind (onPaths_frames [path] _ false) fun success => ?_
  split <;> exact moves_pure _

theorem rename_frames (old new : Option Nat) : Moves (Frames kept) (rename old new) := by
  refine moves_bind (unwrap_moves old) fun p => ?_
  refine moves_bind (path_frames p) fun path => ?_
  refine moves_bind (unwrap_moves new) fun q => ?_
  refine moves_bind (path_frames q) fun path' => ?_
  refine moves_bind (onPaths_frames [path, path'] _ false) fun success => ?_
  split <;> exact moves_pure _

theorem fseek_frames (stream : Option Stream) (offset : Int64) (origin : Int32) :
    Moves (Frames kept) (fseek stream offset origin) := by
  refine moves_bind (lookup_frames stream) fun fd => ?_
  split
  · refine moves_bind (castUsize_moves _) fun n => moves_bind (apply_frames fd _) fun success => ?_
    split <;> exact moves_pure _
  · split
    · refine moves_bind (apply_frames fd _) fun success => ?_
      split <;> exact moves_pure _
    · split <;> exact moves_throw _

theorem ftell_frames (stream : Option Stream) : Moves (Frames kept) (ftell stream) := by
  refine moves_bind (lookup_frames stream) fun fd => ?_
  refine moves_bind (apply_frames fd _) fun pos => ?_
  cases pos with
  | none => exact moves_pure _
  | some pos => exact castLong_moves pos

theorem rewind_frames (stream : Option Stream) : Moves (Frames kept) (rewind stream) := by
  refine moves_bind (lookup_frames stream) fun fd => ?_
  refine moves_bind (apply_frames fd _) fun success => ?_
  split
  · exact moves_throw _
  · exact moves_pure _

/-- A product that is used is the product. -/
theorem mul_frames {a b : Nat} {f : Nat → Run World α} (hf : Moves (Frames kept) (f (a * b))) :
    Moves (Frames kept) (mul a b >>= f) := by
  unfold mul
  split
  · exact hf
  · exact moves_throw _

/-- A read moves no more bytes than it was asked for. -/
theorem read_frames (fd : Stream) {n : Nat} {f : List UInt8 × Bool → Run World α}
    (hf : ∀ got success, got.length ≤ n → Moves (Frames kept) (f (got, success))) :
    Moves (Frames kept) (File.read fd n >>= f) := by
  intro w
  obtain ⟨got, success, w₁, hrun, hmem, hlen⟩ : ∃ got success w₁,
      (File.read fd n).run w = .ok (got, success) w₁ ∧ w₁.mem = w.mem ∧ got.length ≤ n :=
    ⟨_, _, _, apply_run fd _ w, rfl, read_length _ _ n⟩
  have hrest := hf got success hlen w₁
  rw [Frames, hmem] at hrest
  rw [bind_ok hrun]
  exact hrest

theorem fread_frames {buffer size count : Nat} (h : ∀ i, i < size * count → ¬ kept (buffer + i))
    (stream : Option Stream) : Moves (Frames kept) (fread buffer size count stream) := by
  refine moves_bind (lookup_frames stream) fun fd => mul_frames (read_frames fd ?_)
  intro got success hlen
  have hfill : ∀ i, i < got.length → ¬ kept (buffer + i) := by
    intro i hi
    rw [Nat.mul_comm] at hlen
    exact h i (by omega)
  exact moves_bind (onMem_frames (fill_retains hfill)) fun _ => moves_pure _

theorem fwriteFrom_frames {bytes : Nat → Run Mem (List UInt8)} (hbytes : ∀ n, Moves Eq (bytes n))
    (size count : Nat) (stream : Option Stream) :
    Moves (Frames kept) (fwriteFrom bytes size count stream) := by
  refine moves_bind (lookup_frames stream) fun fd => ?_
  refine moves_bind (mul_moves count size) fun n => ?_
  refine moves_bind (onMem_reads (hbytes n)) fun b => ?_
  refine moves_bind (apply_frames fd _) fun success => ?_
  split <;> exact moves_pure _

theorem fgetc_frames (stream : Option Stream) : Moves (Frames kept) (fgetc stream) := by
  refine moves_bind (lookup_frames stream) fun fd => ?_
  refine moves_bind (apply_frames fd _) fun r => ?_
  obtain ⟨got, success⟩ := r
  cases success with
  | true => exact get_frames fun _ => moves_pure _
  | false => exact moves_pure _

theorem fputc_frames (ch : Int32) (stream : Option Stream) :
    Moves (Frames kept) (fputc ch stream) := by
  refine moves_bind (lookup_frames stream) fun fd => ?_
  refine moves_bind (castU8_moves ch) fun b => ?_
  refine moves_bind (apply_frames fd _) fun success => ?_
  split <;> exact moves_pure _

theorem fputs_frames (str : Option Nat) (stream : Option Stream) :
    Moves (Frames kept) (fputs str stream) := by
  refine moves_bind (lookup_frames stream) fun fd => ?_
  refine moves_bind (unwrap_moves str) fun p => moves_bind (path_frames p) fun s => ?_
  refine moves_bind (apply_frames fd _) fun success => ?_
  split
  · exact moves_pure _
  · refine moves_bind (apply_frames fd _) fun success => ?_
    split <;> exact moves_pure _

/-- A part of a call that keeps what is kept does so from any state it has been kept from. -/
theorem Frames.triple {x : Run World α} (hx : Moves (Frames kept) x) (w : World) :
    Triple (Frames kept w) x (fun _ => Frames kept w) (Frames kept w) :=
  triple_moves hx (fun _ _ _ h h' => Retains.trans h h') fun _ _ h h' => Retains.trans h h'

theorem add_triple (w : World) (i : Nat) :
    Triple (Frames kept w) (add i 1) (fun j w' => j = i + 1 ∧ Frames kept w w')
      (Frames kept w) := by
  unfold add
  split
  · exact triple_pure fun _ h => ⟨rfl, h⟩
  · exact triple_throw fun _ h => h

/-- A round of fgets with room for a byte and the terminator. -/
theorem fgetsRound_eq {size : Int32} (hsize : 1 ≤ size.toInt) (s : Nat) (stream : Option Stream)
    (i : Nat) :
    fgetsRound s size stream i = (do
      if i < size.toInt.toNat - 1 then
        let ch ← fgetc stream
        if ch = EOF then
          return .done i
        else if ch = 10 then
          onMem (store s i (← castU8 ch))
          return .done (← add i 1)
        else
          onMem (store s i (← castU8 ch))
          return .next (← add i 1)
      else
        return .done i) := by
  have hcast : castUsize size.toInt = (pure size.toInt.toNat : Run World Nat) :=
    if_pos (by omega)
  have hsub : sub size.toInt.toNat 1 = (pure (size.toInt.toNat - 1) : Run World Nat) :=
    if_pos (by omega)
  rw [fgetsRound, hcast, pure_bind, hsub, pure_bind]

/-- With room for no byte there is no round. -/
theorem fgetsRound_throws {size : Int32} (hsize : ¬ 1 ≤ size.toInt) (s : Nat)
    (stream : Option Stream) (i : Nat) : ∃ e, fgetsRound s size stream i = throw e := by
  by_cases hneg : 0 ≤ size.toInt
  · have hcast : castUsize size.toInt = (pure size.toInt.toNat : Run World Nat) := if_pos hneg
    have hsub : sub size.toInt.toNat 1 = (throw .integerOverflow : Run World Nat) :=
      if_neg (by omega)
    refine ⟨.integerOverflow, ?_⟩
    rw [fgetsRound, hcast, pure_bind, hsub]
    rfl
  · have hcast : castUsize size.toInt = (throw .integerCast : Run World Nat) := if_neg hneg
    refine ⟨.integerCast, ?_⟩
    rw [fgetsRound, hcast]
    rfl

/-- The byte number `i` of a buffer that is not kept. -/
theorem fgetsRound_frames {s : Nat} {size : Int32}
    (h : ∀ i, i < size.toInt.toNat → ¬ kept (s + i)) (stream : Option Stream) (w : World) (i : Nat) :
    Triple (fun w' => Frames kept w w' ∧ i ≤ size.toInt.toNat - 1) (fgetsRound s size stream i)
      (fun turn w' => match turn with
        | .next j => Frames kept w w' ∧ j ≤ size.toInt.toNat - 1
        | .done j => Frames kept w w' ∧ j < size.toInt.toNat) (Frames kept w) := by
  by_cases hsize : 1 ≤ size.toInt
  · rw [fgetsRound_eq hsize]
    split
    · rename_i hi
      refine triple_bind (triple_conseq (Frames.triple (fgetc_frames stream) w) (fun _ h => h.1)
        fun _ _ h => h) fun ch => ?_
      have hstore : ∀ b, Triple (Frames kept w) (onMem (store s i b)) (fun _ => Frames kept w)
          (Frames kept w) := fun b =>
        Frames.triple (onMem_frames (store_retains (h i (by omega)) b)) w
      have hmoves : Moves (Frames kept) (castU8 ch : Run World UInt8) := castU8_moves ch
      have hcast := Frames.triple hmoves w
      split
      · exact triple_pure fun _ h => ⟨h, by omega⟩
      · split
        · refine triple_bind hcast fun b => triple_bind (hstore b) fun _ => ?_
          refine triple_bind (add_triple w i) fun j => triple_pure ?_
          rintro w' ⟨rfl, h⟩
          exact ⟨h, by omega⟩
        · refine triple_bind hcast fun b => triple_bind (hstore b) fun _ => ?_
          refine triple_bind (add_triple w i) fun j => triple_pure ?_
          rintro w' ⟨rfl, h⟩
          exact ⟨h, by omega⟩
    · exact triple_pure fun _ h => ⟨h.1, by omega⟩
  · obtain ⟨e, he⟩ := fgetsRound_throws hsize s stream i
    rw [he]
    exact triple_throw fun _ h => h.1

theorem fgets_frames {s : Nat} {size : Int32} (h : ∀ i, i < size.toInt.toNat → ¬ kept (s + i))
    (stream : Option Stream) : Moves (Frames kept) (fgets s size stream) := by
  intro w
  refine triple_after (P := Frames kept w) ?_ (refl_of (Frames kept) w)
  have hloop : Triple (fun w' => Frames kept w w' ∧ 0 ≤ size.toInt.toNat - 1)
      (while_ 0 (fgetsRound s size stream))
      (fun i w' => Frames kept w w' ∧ i < size.toInt.toNat) (Frames kept w) := by
    refine triple_loop (I := fun i w' => Frames kept w w' ∧ i ≤ size.toInt.toNat - 1)
      (fun i => ?_) (fun _ _ h => h.1) _ 0
    refine triple_conseq (fgetsRound_frames h stream w i) (fun _ h => h) fun turn w' hw => ?_
    cases turn <;> exact hw
  refine triple_bind (triple_conseq hloop (fun _ h => ⟨h, Nat.zero_le _⟩) fun _ _ h => h) fun i => ?_
  rintro w' ⟨hw, hi⟩
  have hend := moves_bind (onMem_frames (store_retains (h i hi) 0)) fun _ =>
    moves_pure (R := Frames kept) (some s)
  exact Frames.triple hend w w' hw

theorem test_fprintf_frames (stream : Option Stream) (fmt : Nat) :
    Moves (Frames kept) (test_fprintf stream fmt) := by
  have hload : ∀ i, Moves (Frames kept) (onMem (load fmt i)) :=
    fun i => onMem_reads (load_moves fmt i)
  refine moves_bind (moves_loop (fun i => ?_) _ 0) fun _ => moves_pure 0
  refine moves_bind (hload i) fun c => ?_
  split
  · refine moves_bind (hload i) fun ch => moves_bind (add_moves i 1) fun i => ?_
    split
    · exact moves_bind (fputc_frames _ stream) fun _ => moves_pure _
    · refine moves_bind (hload i) fun ch => moves_bind (add_moves i 1) fun i => ?_
      split
      · exact moves_pure _
      · split
        · exact moves_bind (fputc_frames _ stream) fun _ => moves_pure _
        · exact get_frames fun _ =>
            moves_bind (fwriteFrom_frames (fun _ => moves_pure _) _ _ stream) fun _ => moves_pure _
  · exact moves_pure _

theorem map_frames {x : Run World α} (f : α → β) (hx : Moves (Frames kept) x) :
    Moves (Frames kept) (f <$> x) := by
  rw [map_eq_pure_bind]
  exact moves_bind hx fun _ => moves_pure _

/-- Every call leaves what is kept where it may not write it. -/
theorem call_frames {c : Call} (h : ∀ p, c.Fills p → ¬ kept p) : Moves (Frames kept) c.run := by
  cases c with
  | fopen filename mode | fopen64 filename mode => exact fopen_frames filename mode
  | freopen filename mode stream | freopen64 filename mode stream =>
    exact freopen_frames filename mode stream
  | fclose stream => exact map_frames _ (fclose_frames stream)
  | rename old new => exact map_frames _ (rename_frames old new)
  | remove path => exact map_frames _ (remove_frames path)
  | fseek stream offset origin => exact map_frames _ (fseek_frames stream offset origin)
  | ftell stream => exact map_frames _ (ftell_frames stream)
  | rewind stream => exact map_frames _ (rewind_frames stream)
  | fread buffer size count stream =>
    refine map_frames _ (fread_frames (fun i hi => h _ ?_) stream)
    exact ⟨Nat.le_add_right _ _, Nat.add_lt_add_left hi _⟩
  | fwrite buffer size count stream =>
    exact map_frames _ (fwriteFrom_frames (fun n => slice_moves buffer n) size count stream)
  | fgetc stream | getc stream | _IO_getc stream => exact map_frames _ (fgetc_frames stream)
  | getchar => exact map_frames _ (fgetc_frames _)
  | fputc ch stream | putc ch stream => exact map_frames _ (fputc_frames ch stream)
  | putchar ch => exact map_frames _ (fputc_frames ch _)
  | fputs str stream => exact map_frames _ (fputs_frames str stream)
  | puts str => exact map_frames _ (fputs_frames _ _)
  | fgets s size stream =>
    refine map_frames _ (fgets_frames (fun i hi => h _ ?_) stream)
    exact ⟨Nat.le_add_right _ _, Nat.add_lt_add_left hi _⟩
  | test_fprintf stream fmt => exact map_frames _ (test_fprintf_frames stream fmt)
  | clearerr | feof | ferror | fflush | setvbuf => exact map_frames _ (moves_pure _)

end Calls

end Stdio
