import Zligc.StdioInput

/-!
# How fgets splits a stream

While the stream has a newline to offer, or as many bytes as the buffer can take, fgets
stores the bytes up to the newline or up to the end of the buffer, and the next call goes on
behind them.
-/
namespace Stdio

open Effect CellMemory Zig Zligc OsFile

/-- How many bytes a buffer of the given size takes of what is left: up to the first newline,
which is kept, or all that fit before the terminator. -/
def taken (size : Int32) (rest : List UInt8) : Nat :=
  min (size.toInt.toNat - 1) (rest.idxOf 10 + 1)

/-- Enough is left for a buffer of the given size: a newline, or as many bytes as it holds. -/
def Offers (size : Int32) (rest : List UInt8) : Prop :=
  10 ∈ rest ∨ size.toInt.toNat - 1 ≤ rest.length

/-- A call of fgets that stores `piece` and its terminator at `s` and nothing else, and moves the
stream behind the piece. -/
structure TakesPiece (w : World) (fd : Stream) (s : Nat) (size : Int32) (piece : List UInt8)
    (w' : World) : Prop where
  returned : (fgets s size (some fd)).run w = .ok (some s) w'
  fits : piece.length < size.toInt.toNat
  stored : ∀ i, i < piece.length → w'.mem.cell (s + i) = piece[i]?
  terminated : w'.mem.cell (s + piece.length) = some 0
  kept : ∀ p, p < s ∨ s + piece.length < p → w'.mem.cell p = w.mem.cell p
  contents : w'.kernel.contents = w.kernel.contents
  advanced : ∀ h d, Held w fd h d → Held w' fd h { d with offset := d.offset + piece.length }

/-- Consecutive calls, each with a buffer and its size, and the pieces they store. -/
inductive TakesPieces (fd : Stream) :
    World → List (Nat × Int32) → List (List UInt8) → World → Prop where
  | stop (w : World) : TakesPieces fd w [] [] w
  | fgets {w w' w'' : World} {s : Nat} {size : Int32} {piece : List UInt8}
      {calls : List (Nat × Int32)} {pieces : List (List UInt8)} :
      TakesPiece w fd s size piece w' → TakesPieces fd w' calls pieces w'' →
      TakesPieces fd w ((s, size) :: calls) (piece :: pieces) w''

/-- The pieces of a stream for buffers of given sizes. -/
def pieces : List (Nat × Int32) → List UInt8 → List (List UInt8)
  | [], _ => []
  | (_, size) :: calls, rest =>
    rest.take (taken size rest) :: pieces calls (rest.drop (taken size rest))

/-- Every call has a buffer that is not empty and finds enough in the stream. -/
def Provided : List (Nat × Int32) → List UInt8 → Prop
  | [], _ => True
  | (_, size) :: calls, rest =>
    0 < size.toInt ∧ Offers size rest ∧ Provided calls (rest.drop (taken size rest))

/-- With enough left, no byte that fgets stores is one that it did not read. -/
theorem lineOf_offered (c : UInt8) {rest : List UInt8} {n : Nat}
    (h : 10 ∈ rest ∨ n ≤ rest.length) :
    lineOf c rest n = rest.take (min n (rest.idxOf 10 + 1)) := by
  induction n generalizing rest with
  | zero => simp [lineOf]
  | succ n ih =>
    cases rest with
    | nil => simp at h
    | cons b rest =>
      rw [lineOf, List.headD_cons, List.tail_cons]
      by_cases hb : b = 10
      · simp [hb]
      · have hrest : 10 ∈ rest ∨ n ≤ rest.length := by
          simpa [Ne.symm hb] using h
        have hidx : (b :: rest).idxOf 10 = rest.idxOf 10 + 1 := by
          rw [List.idxOf_cons, beq_false_of_ne hb, cond_false]
        have hmin : min (n + 1) (rest.idxOf 10 + 1 + 1) = min n (rest.idxOf 10 + 1) + 1 := by
          omega
        rw [if_neg hb, hidx, hmin, List.take_succ_cons, ih hrest]

theorem taken_le (size : Int32) {rest : List UInt8} (h : Offers size rest) :
    taken size rest ≤ rest.length := by
  unfold taken
  cases h with
  | inl hmem =>
    have hlt := List.idxOf_lt_length_of_mem hmem
    omega
  | inr hle => omega

section Splitting

variable {w : World} {fd : Stream} {rest : List UInt8}

theorem fgets_piece {s : Nat} {size : Int32} (h : Readable w fd rest) (hsize : 0 < size.toInt)
    (hoffer : Offers size rest) (hmap : Mapped w.mem s size.toInt.toNat)
    (hok : Working w (taken size rest)) :
    ∃ w', TakesPiece w fd s size (rest.take (taken size rest)) w' ∧
      Took fd (taken size rest) (taken size rest) w w' ∧
      w'.mem = write w.mem s (rest.take (taken size rest) ++ [0]) := by
  have hline : lineOf w.undefinedByte rest (size.toInt.toNat - 1) =
      rest.take (taken size rest) := lineOf_offered _ hoffer
  have hlen : (rest.take (taken size rest)).length = taken size rest :=
    List.length_take_of_le (taken_le size hoffer)
  have hfit : taken size rest < size.toInt.toNat := by
    unfold taken
    omega
  obtain ⟨w', hrun, hmem, htook⟩ := fgets_takes (s := s) size h hsize (by rwa [hline, hlen]) hmap
  rw [hline] at hmem htook
  rw [hlen, hlen] at htook
  have hnew := holds_write w.mem s (rest.take (taken size rest) ++ [0])
    (hmap.part (Nat.le_refl _) (by rw [List.length_append, hlen, List.length_singleton]; omega))
  rw [← hmem] at hnew
  refine ⟨w', ⟨hrun, by rwa [hlen], fun i hi => ?_, ?_, fun p hp => ?_, htook.contents, ?_⟩, htook,
    hmem⟩
  · rw [hnew.left i hi]
  · exact hnew.middle
  · rw [hmem, write_outside]
    rw [List.length_append, List.length_singleton]
    omega
  · rw [hlen]
    exact htook.moved

theorem fgets_pieces {calls : List (Nat × Int32)} (h : Readable w fd rest)
    (hcalls : Provided calls rest) (hmap : ∀ c ∈ calls, Mapped w.mem c.1 c.2.toInt.toNat)
    (hok : Working w (pieces calls rest).flatten.length) :
    ∃ w' left, TakesPieces fd w calls (pieces calls rest) w' ∧ Readable w' fd left ∧
      (pieces calls rest).flatten ++ left = rest := by
  induction calls generalizing w rest with
  | nil => exact ⟨w, rest, .stop w, h, rfl⟩
  | cons call calls ih =>
    obtain ⟨s, size⟩ := call
    obtain ⟨hsize, hoffer, hcalls⟩ := hcalls
    rw [List.forall_mem_cons] at hmap
    have hlen : (rest.take (taken size rest)).length = taken size rest :=
      List.length_take_of_le (taken_le size hoffer)
    rw [pieces, List.flatten_cons, List.length_append, hlen] at hok
    obtain ⟨w₁, hpiece, htook, hmem⟩ :=
      fgets_piece h hsize hoffer hmap.1 fun j hj => hok j (by omega)
    have hmap₁ : ∀ c ∈ calls, Mapped w₁.mem c.1 c.2.toInt.toNat := by
      intro c hc
      rw [hmem]
      exact (hmap.2 c hc).write _ _
    obtain ⟨w₂, left, hpieces, hread, hflat⟩ :=
      ih (htook.readable h) hcalls hmap₁ (htook.working hok)
    refine ⟨w₂, left, .fgets hpiece hpieces, hread, ?_⟩
    rw [pieces, List.flatten_cons, List.append_assoc, hflat, List.take_append_drop]

end Splitting

/-- One call of fgets stores the next piece of the stream, and consecutive calls store consecutive
pieces. -/
theorem fgets_splits {w : World} {fd : Stream} {rest : List UInt8} (h : Readable w fd rest) :
    (∀ s size, 0 < size.toInt → Offers size rest → Mapped w.mem s size.toInt.toNat →
      Working w (taken size rest) →
      ∃ w', TakesPiece w fd s size (rest.take (taken size rest)) w') ∧
    ∀ calls, Provided calls rest → (∀ c ∈ calls, Mapped w.mem c.1 c.2.toInt.toNat) →
      Working w (pieces calls rest).flatten.length →
      ∃ w' left, TakesPieces fd w calls (pieces calls rest) w' ∧ Readable w' fd left ∧
        (pieces calls rest).flatten ++ left = rest := by
  constructor
  · intro s size hsize hoffer hmap hok
    obtain ⟨w', hpiece, _⟩ := fgets_piece h hsize hoffer hmap hok
    exact ⟨w', hpiece⟩
  · exact fun calls hcalls hmap hok => fgets_pieces h hcalls hmap hok

theorem fgets_splits_example :
    (∃ w', TakesPiece (readyWorld firstMem [104, 10, 105]) .stdin_file 1 4 [104, 10] w') ∧
    ∃ w' left, TakesPieces .stdin_file (readyWorld firstMem [104, 10, 105]) [(1, 4), (5, 2)]
        [[104, 10], [105]] w' ∧ Readable w' .stdin_file left ∧
      [[104, 10], [105]].flatten ++ left = [104, 10, 105] := by
  obtain ⟨hone, hall⟩ := fgets_splits (ready_source firstMem [104, 10, 105]).readable
  constructor
  · exact hone 1 4 (by decide) (Or.inl (by decide)) (by decide) fun _ _ => rfl
  · exact hall [(1, 4), (5, 2)] ⟨by decide, Or.inl (by decide), by decide, Or.inr (by decide),
      trivial⟩ (by decide) fun _ _ => rfl

end Stdio
