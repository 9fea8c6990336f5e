import Zligc.StringCompare

/-!
# What the bounded functions read

A traced memory keeps the subscripts that were read through each pointer. The
bounded loops test the bound only after the byte, so on a full array, one whose
first `count` bytes hold no NUL, they read the byte at `count` as well.
-/
namespace ZligcString

open Effect CellMemory Zig LexOrder

/-- A memory and the reads made of it, the latest first: `(p, i)` is a read of `p[i]`. -/
structure Traced where
  mem : Mem
  reads : List (Nat × Nat)

instance : HasMem Traced where
  mem s := s.mem
  withMem s m := { s with mem := m }
  reading p i s := { s with reads := (p, i) :: s.reads }

section Access

variable {m : Mem} {log : List (Nat × Nat)} {p i : Nat} {b : UInt8}

@[simp] theorem traced_load (h : m.cell (p + i) = some b) :
    (load p i).run (⟨m, log⟩ : Traced) = .ok b ⟨m, (p, i) :: log⟩ := by
  simp [load, EStateM.run, HasMem.mem, HasMem.reading, h]

/-- An access that faults has been made. -/
@[simp] theorem traced_fault (h : m.cell (p + i) = none) :
    (load p i).run (⟨m, log⟩ : Traced) = .error .segmentation ⟨m, (p, i) :: log⟩ := by
  simp [load, EStateM.run, HasMem.mem, HasMem.reading, h]

@[simp] theorem traced_store (b : UInt8) (h : (m.cell (p + i)).isSome) :
    (store p i b).run (⟨m, log⟩ : Traced) = .ok () ⟨write m (p + i) [b], log⟩ := by
  simp [store, EStateM.run, HasMem.mem, HasMem.withMem, h]

end Access

/-- A part of a program that reads nothing. -/
def SameReads (s s' : Traced) : Prop := s'.reads = s.reads

instance : IsPreorder Traced SameReads where
  refl _ := rfl
  trans _ _ _ h h' := Eq.trans h' h

theorem store_reads (p i : Nat) (b : UInt8) : Moves SameReads (store p i b : Run Traced Unit) := by
  intro s
  unfold store EStateM.run
  dsimp only
  split <;> rfl

/-- The reads of `n` rounds on top of earlier ones, where round `i` makes the reads `f i`. -/
def trail (f : Nat → List (Nat × Nat)) (log : List (Nat × Nat)) : Nat → List (Nat × Nat)
  | 0 => log
  | n + 1 => f n ++ trail f log n

theorem mem_trail {f : Nat → List (Nat × Nat)} {log : List (Nat × Nat)} {n : Nat} {r : Nat × Nat} :
    r ∈ trail f log n ↔ r ∈ log ∨ ∃ i, i < n ∧ r ∈ f i := by
  induction n with
  | zero => simp [trail]
  | succ n ih =>
    rw [trail, List.mem_append, ih]
    constructor
    · rintro (h | h | ⟨i, hi, h⟩)
      · exact Or.inr ⟨n, by omega, h⟩
      · exact Or.inl h
      · exact Or.inr ⟨i, by omega, h⟩
    · rintro (h | ⟨i, hi, h⟩)
      · exact Or.inr (Or.inl h)
      · rcases Nat.lt_or_eq_of_le (Nat.le_of_lt_succ hi) with hlt | rfl
        · exact Or.inr (Or.inr ⟨i, hlt, h⟩)
        · exact Or.inl h

/-- The reads through `p` stay below the bound and go no further than the first NUL of `xs`. -/
def ReadsWithin (reads : List (Nat × Nat)) (p : Nat) (xs : List UInt8) (count : Nat) : Prop :=
  ∀ i, (p, i) ∈ reads → i < count ∧ 0 ∉ xs.take i

/-- The first `count` bytes are all there and none of them is NUL. -/
def Full (xs : List UInt8) (count : Nat) : Prop := count ≤ xs.length ∧ 0 ∉ xs.take count

/-- The bytes that a loop bounded by `count` passes: those before the first NUL, if that is
below the bound. -/
def scanned (xs : List UInt8) (count : Nat) : List UInt8 := (xs.take count).takeWhile (· != 0)

/-- An array of bytes, as far as a function bounded by `count` may look at it: it has that many
bytes, or a NUL among them, or memory ends behind it. -/
structure ArrayAt (m : Mem) (p : Nat) (xs : List UInt8) (count : Nat) : Prop where
  bytes : Holds m p xs
  ends : count ≤ xs.length ∨ 0 ∈ xs ∨ m.cell (p + xs.length) = none

theorem scanned_nonzero (xs : List UInt8) (count : Nat) : 0 ∉ scanned xs count := by
  intro h
  have hne := List.all_takeWhile (p := fun c : UInt8 => c != 0) (l := xs.take count)
  rw [List.all_eq_true] at hne
  simpa using hne 0 h

theorem scanned_cons {x : UInt8} (hx : x ≠ 0) (xs : List UInt8) (count : Nat) :
    scanned (x :: xs) (count + 1) = x :: scanned xs count := by
  simp [scanned, hx]

/-- A bounded scan passes the whole bound of a full array, stops at a NUL below the bound, or
runs to the end of the array. -/
theorem scanned_cases (xs : List UInt8) (count : Nat) :
    (Full xs count ∧ scanned xs count = xs.take count) ∨
      (¬ Full xs count ∧ (scanned xs count).length < count ∧
        ((∃ rest, xs = scanned xs count ++ 0 :: rest) ∨ (scanned xs count = xs ∧ 0 ∉ xs))) := by
  induction xs generalizing count with
  | nil =>
    cases count with
    | zero => left; simp [Full, scanned]
    | succ count => right; simp [Full, scanned]
  | cons x xs ih =>
    cases count with
    | zero => left; simp [Full, scanned]
    | succ count =>
      by_cases hx : x = 0
      · right
        simp [Full, scanned, hx]
      · rw [scanned_cons hx]
        have hfull : Full (x :: xs) (count + 1) ↔ Full xs count := by
          simp [Full, Ne.symm hx]
        rw [hfull]
        cases ih count with
        | inl h => left; simp [h.1, h.2]
        | inr h =>
          right
          refine ⟨h.1, by simpa using h.2.1, ?_⟩
          cases h.2.2 with
          | inl hrest =>
            obtain ⟨rest, hrest⟩ := hrest
            exact Or.inl ⟨rest, by rw [List.cons_append, ← hrest]⟩
          | inr hend => exact Or.inr ⟨by rw [hend.1], by simp [hend.2, Ne.symm hx]⟩

section Scanning

variable {m : Mem} {p dest src lhs rhs count : Nat} {xs ys zs : List UInt8}
  {log : List (Nat × Nat)}

theorem scanned_initial (xs : List UInt8) (count : Nat) : scanned xs count <+: xs :=
  (List.takeWhile_prefix _).trans (List.take_prefix count xs)

theorem full_scanned (h : Full xs count) : scanned xs count = xs.take count := by
  cases scanned_cases xs count with
  | inl hfull => exact hfull.2
  | inr hend => exact absurd h hend.1

theorem full_iff : Full xs count ↔ (scanned xs count).length = count := by
  cases scanned_cases xs count with
  | inl h =>
    have hlen := h.1.1
    simp [h.1, h.2, hlen]
  | inr h =>
    have hlt := h.2.1
    simp only [h.1, false_iff]
    omega

/-- Below its bound a scan stops at a NUL of the array or where memory ends. -/
theorem ArrayAt.stop (h : ArrayAt m p xs count) (hlt : (scanned xs count).length < count) :
    ((scanned xs count).length < xs.length ∧ m.cell (p + (scanned xs count).length) = some 0) ∨
      m.cell (p + (scanned xs count).length) = none := by
  cases scanned_cases xs count with
  | inl hfull =>
    have hlen := full_iff.mp hfull.1
    omega
  | inr hend =>
    cases hend.2.2 with
    | inl hrest =>
      obtain ⟨rest, hrest⟩ := hrest
      have hbytes := h.bytes
      have hlen := congrArg List.length hrest
      rw [hrest] at hbytes
      simp only [List.length_append, List.length_cons] at hlen
      exact Or.inl ⟨by omega, hbytes.middle⟩
    | inr hall =>
      right
      rw [hall.1] at hlt ⊢
      have hends := h.ends
      simpa [hall.2, Nat.not_le.mpr hlt] using hends

theorem ArrayAt.passed (h : ArrayAt m p xs count) : Holds m p (scanned xs count) := by
  obtain ⟨rest, hrest⟩ := scanned_initial xs count
  exact Holds.left (hrest ▸ h.bytes)

theorem scanned_length_le (xs : List UInt8) (count : Nat) : (scanned xs count).length ≤ count := by
  have hle := (List.takeWhile_prefix (l := xs.take count) (fun c : UInt8 => c != 0)).length_le
  rw [List.length_take] at hle
  unfold scanned
  omega

/-- Reads that end where a bounded scan does, or earlier, stay within the bound. -/
theorem readsWithin {reads : List (Nat × Nat)} {k : Nat} (hk : k < count)
    (hle : k ≤ (scanned xs count).length) (h : ∀ i, (p, i) ∈ reads → i ≤ k) :
    ReadsWithin reads p xs count := by
  intro i hi
  have hik := h i hi
  refine ⟨by omega, fun h0 => scanned_nonzero xs count ?_⟩
  rw [List.prefix_iff_eq_take.mp (scanned_initial xs count)]
  exact (List.take_sublist_take_left (by omega)).subset h0

theorem not_readsWithin {reads : List (Nat × Nat)} (h : (p, count) ∈ reads) :
    ¬ ReadsWithin reads p xs count :=
  fun hin => Nat.lt_irrefl _ (hin count h).1

/-- The last round of a bounded copy reads one byte: it leaves the loop or faults. -/
theorem copyRound_stops {s : Traced} {k : Nat} (place : Nat → Run Traced Nat)
    (hstop : k < count → s.mem.cell (src + k) = some 0 ∨ s.mem.cell (src + k) = none) :
    (copyRound dest src count place k).run s =
        .error .segmentation ⟨s.mem, (src, k) :: s.reads⟩ ∨
      (copyRound dest src count place k).run s = .ok (.done k) ⟨s.mem, (src, k) :: s.reads⟩ := by
  obtain ⟨m, log⟩ := s
  dsimp only at hstop ⊢
  cases hc : m.cell (src + k) with
  | none =>
    left
    simp [copyRound, hc]
  | some c =>
    right
    by_cases hlt : k < count
    · have h0 : c = 0 := by simpa [hc, hlt] using hstop
      simp [copyRound, hc, h0]
    · simp [copyRound, hc, hlt]

/-- A bounded copy reads every byte it copies twice and the one it stops at once. What comes after
the loop reads nothing. -/
theorem copy_reads {target : Nat} {place : Nat → Run Traced Nat} {index : Nat → Nat}
    {f : Nat → Run Traced Nat} (h : Copyable m target src zs)
    (hindex : ∀ i, dest + index i = target + i)
    (hplace : ∀ i, i < zs.length → ∀ s, (place i).run s = .ok (index i) s)
    (hf : ∀ i, Moves SameReads (f i)) (hle : zs.length ≤ count)
    (hstop : zs.length < count → (write m target zs).cell (src + zs.length) = some 0 ∨
      (write m target zs).cell (src + zs.length) = none) :
    (after ((while_ 0 (copyRound dest src count place) >>= f).run ⟨m, log⟩)).reads =
      (src, zs.length) :: trail (fun i => [(src, i), (src, i)]) log zs.length := by
  have hb := h.source.mapped.length_lt (by decide)
  let s (i : Nat) : Traced :=
    ⟨write m target (zs.take i), trail (fun i => [(src, i), (src, i)]) log i⟩
  have hround : ∀ i, i < zs.length →
      (copyRound dest src count place i).run (s i) = .ok (.next (i + 1)) (s (i + 1)) := by
    intro i hi
    obtain ⟨c, hc, hne, hmap, hw⟩ := h.round hi
    have hlt : i < count := by omega
    rw [← hindex] at hmap hw
    simp [copyRound, s, hc, hne, hmap, hplace i hi, h.index hi, hw, hlt, trail]
  have hs : s 0 = ⟨m, log⟩ := by simp [s, trail]
  have hend : (s zs.length).mem = write m target zs := by simp [s]
  rw [(moves_rest (R := SameReads) hf ⟨m, log⟩).trans]
  cases copyRound_stops place (s := s zs.length) (hend ▸ hstop) with
  | inl hfault => rw [while_, loop_fault (fun i => i) s rfl hs (by omega) hround hfault, after_error]
  | inr hdone => rw [while_, loop_result (fun i => i) s rfl hs (by omega) hround hdone, after_ok]

theorem strncpy_reads (h : Copyable m dest src zs) (hle : zs.length ≤ count)
    (hstop : zs.length < count → (write m dest zs).cell (src + zs.length) = some 0 ∨
      (write m dest zs).cell (src + zs.length) = none) :
    (after ((strncpy dest src count).run (⟨m, log⟩ : Traced))).reads =
      (src, zs.length) :: trail (fun i => [(src, i), (src, i)]) log zs.length := by
  rw [strncpy_loops]
  refine copy_reads h (fun _ => rfl) (fun i _ s => EStateM.run_pure i s) (fun i => ?_) hle hstop
  refine moves_bind (moves_loop (fun j => ?_) _ i) fun _ => moves_pure dest
  split
  · exact moves_bind (store_reads _ _ _) fun _ => moves_bind (add_moves _ _) fun _ => moves_pure _
  · exact moves_pure _

/-- strncat reads its destination up to the terminator and then the source as strncpy does. -/
theorem strncat_reads {cur : List UInt8} (hcur : StringAt m dest cur)
    (h : Copyable m (dest + cur.length) src zs) (hle : zs.length ≤ count)
    (hstop : zs.length < count → (write m (dest + cur.length) zs).cell (src + zs.length) = some 0 ∨
      (write m (dest + cur.length) zs).cell (src + zs.length) = none) :
    (after ((strncat dest src count).run (⟨m, log⟩ : Traced))).reads =
      (src, zs.length) :: trail (fun j => [(src, j), (src, j)])
        ((dest, cur.length) :: trail (fun i => [(dest, i)]) log cur.length) zs.length := by
  have hbd := hcur.bounds
  let scan (i : Nat) : Traced := ⟨m, trail (fun i => [(dest, i)]) log i⟩
  have hscan : (while_ 0 fun i => do
      if (← load dest i) != 0 then
        return .next (← add i 1)
      else
        return .done i : Run Traced Nat).run ⟨m, log⟩ =
      .ok cur.length ⟨m, (dest, cur.length) :: (scan cur.length).reads⟩ := by
    apply loop_result (fun i => i) scan rfl rfl (k := cur.length) (by omega)
    · intro i hi
      obtain ⟨c, hc, _, hne⟩ := hcur.char hi
      have hadd : i + 1 < 0x10000000000000000 := by omega
      simp [scan, hc, hne, hadd, trail]
    · simp [scan, hcur.terminator]
  rw [strncat_loops, bind_ok hscan]
  apply copy_reads h (fun i => (Nat.add_assoc dest cur.length i).symm) _ _ hle hstop
  · intro i hi s
    have hend := h.target.bounds (by omega)
    exact add_run s (by omega)
  · exact fun j => moves_bind (add_moves _ _) fun _ => moves_bind (store_reads _ _ _) fun _ =>
      moves_pure dest

/-- Where strncmp leaves its loop, or faults, it has read the left byte and perhaps the right one. -/
theorem strncmpRound_reads {s : Traced} {k : Nat}
    (hpart : ∀ c, k < count → s.mem.cell (lhs + k) = some c → s.mem.cell (rhs + k) = some c →
      c = 0) :
    ∃ last, ((strncmpRound lhs rhs count k).run s =
          .error .segmentation ⟨s.mem, last ++ s.reads⟩ ∨
        ∃ v, (strncmpRound lhs rhs count k).run s =
          .ok (.done (.returned v)) ⟨s.mem, last ++ s.reads⟩) ∧
      (lhs, k) ∈ last ∧ ∀ r, r ∈ last → r = (lhs, k) ∨ r = (rhs, k) := by
  obtain ⟨m, log⟩ := s
  dsimp only at hpart ⊢
  cases hc : m.cell (lhs + k) with
  | none =>
    exact ⟨[(lhs, k)], Or.inl (by simp [strncmpRound, hc]), by simp, by simp⟩
  | some c =>
    by_cases hc0 : c = 0
    · exact ⟨[(lhs, k)], Or.inr ⟨0, by simp [strncmpRound, hc, hc0]⟩, by simp, by simp⟩
    · cases hd : m.cell (rhs + k) with
      | none =>
        exact ⟨[(rhs, k), (lhs, k)], Or.inl (by simp [strncmpRound, hc, hd, hc0]), by simp,
          by simp⟩
      | some d =>
        by_cases hstop : d = 0 ∨ ¬ k < count
        · refine ⟨[(rhs, k), (lhs, k)], Or.inr ⟨0, ?_⟩, by simp, by simp⟩
          rcases hstop with rfl | hge
          · simp [strncmpRound, hc, hd, hc0]
          · simp [strncmpRound, hc, hd, hc0, hge]
        · rw [not_or, not_not] at hstop
          have hcd : c ≠ d := fun he => hc0 (hpart c hstop.2 hc (he ▸ hd))
          rcases bytes_part hcd with ⟨hgt, _⟩ | ⟨hng, hlt, _⟩
          · exact ⟨[(rhs, k), (lhs, k), (rhs, k), (lhs, k)],
              Or.inr ⟨1, by simp [strncmpRound, hc, hd, hc0, hstop, hgt]⟩, by simp, by simp⟩
          · exact ⟨[(rhs, k), (lhs, k), (rhs, k), (lhs, k), (rhs, k), (lhs, k)],
              Or.inr ⟨-1, by simp [strncmpRound, hc, hd, hc0, hstop, hng, hlt]⟩, by simp, by simp⟩

/-- strncmp reads both arrays three times as far as they agree, and then what its last round
reads. -/
theorem strncmp_reads (hl : Holds m lhs zs) (hr : Holds m rhs zs) (h0 : 0 ∉ zs)
    (hle : zs.length ≤ count)
    (hpart : ∀ c, zs.length < count → m.cell (lhs + zs.length) = some c →
      m.cell (rhs + zs.length) = some c → c = 0) :
    ∃ last, (after ((strncmp lhs rhs count).run (⟨m, log⟩ : Traced))).reads =
        last ++ trail (fun i => [(rhs, i), (lhs, i), (rhs, i), (lhs, i), (rhs, i), (lhs, i)]) log
          zs.length ∧
      (lhs, zs.length) ∈ last ∧ ∀ r, r ∈ last → r = (lhs, zs.length) ∨ r = (rhs, zs.length) := by
  have hb := hl.mapped.length_lt (by decide)
  let s (i : Nat) : Traced :=
    ⟨m, trail (fun i => [(rhs, i), (lhs, i), (rhs, i), (lhs, i), (rhs, i), (lhs, i)]) log i⟩
  have hround : ∀ i, i < zs.length →
      (strncmpRound lhs rhs count i).run (s i) = .ok (.next (i + 1)) (s (i + 1)) := by
    intro i hi
    have hadd : i + 1 < 0x10000000000000000 := by omega
    have hlt : i < count := by omega
    have hne : zs[i] ≠ 0 := fun he => h0 (he ▸ List.getElem_mem hi)
    simp [strncmpRound, s, hl.cell hi, hr.cell hi, hadd, hne, hlt, trail]
  obtain ⟨last, hlast, hin, hall⟩ := strncmpRound_reads (s := s zs.length) hpart
  obtain ⟨f, hloop, hf⟩ := strncmp_loop Traced lhs rhs count
  refine ⟨last, ?_, hin, hall⟩
  rw [hloop, while_, show (⟨m, log⟩ : Traced) = s 0 from rfl]
  rcases hlast with hfault | ⟨v, hdone⟩
  · rw [bind_error (loop_fault (fun i => i) s rfl rfl (by omega) hround hfault), after_error]
  · rw [bind_ok (loop_result (fun i => i) s rfl rfl (by omega) hround hdone), hf]
    rfl

/-- The bytes a bounded copy passes are copyable to a mapped place away from the array. -/
theorem ArrayAt.copyable {n : Nat} (h : ArrayAt m src xs count) (hm : Mapped m dest n)
    (ha : Apart src xs.length dest n) (hn : (scanned xs count).length ≤ n) :
    Copyable m dest src (scanned xs count) := by
  constructor
  · exact h.passed
  · exact scanned_nonzero xs count
  · exact hm.part (Nat.le_refl _) (by omega)
  · exact ha.mono (scanned_initial xs count).length_le hn

/-- A bounded copy that stops below its bound stops there in the memory it has written. -/
theorem ArrayAt.stop_write {n : Nat} (h : ArrayAt m src xs count)
    (ha : Apart src xs.length dest n) (hn : (scanned xs count).length ≤ n)
    (hlt : (scanned xs count).length < count) :
    (write m dest (scanned xs count)).cell (src + (scanned xs count).length) = some 0 ∨
      (write m dest (scanned xs count)).cell (src + (scanned xs count).length) = none := by
  cases h.stop hlt with
  | inl hnul =>
    left
    rw [write_outside, hnul.2]
    by_contra hin
    exact ha _ hnul.1 (src + (scanned xs count).length - dest) (by omega) (by omega)
  | inr hnone =>
    right
    rw [write_cell, hnone, Option.map_none]

theorem strncpy_reads_iff (h : ArrayAt m src xs count) (hm : Mapped m dest count)
    (ha : Apart src xs.length dest count) :
    ReadsWithin (after ((strncpy dest src count).run (⟨m, []⟩ : Traced))).reads src xs count ↔
      ¬ Full xs count := by
  have hle := scanned_length_le xs count
  rw [full_iff, strncpy_reads (h.copyable hm ha hle) hle (h.stop_write ha hle)]
  constructor
  · intro hin he
    exact not_readsWithin (by simp [he]) hin
  · intro hne
    refine readsWithin (by omega) (Nat.le_refl _) fun i hi => ?_
    simp only [List.mem_cons, mem_trail, Prod.mk.injEq, true_and, List.not_mem_nil] at hi
    grind

theorem strncat_reads_iff {cur : List UInt8} (hcur : StringAt m dest cur)
    (h : ArrayAt m src xs count)
    (hm : Mapped m (dest + cur.length) ((scanned xs count).length + 1))
    (ha : Apart src xs.length dest (cur.length + (scanned xs count).length + 1)) :
    ReadsWithin (after ((strncat dest src count).run (⟨m, []⟩ : Traced))).reads src xs count ↔
      ¬ Full xs count := by
  have hle := scanned_length_le xs count
  have ha' : Apart src xs.length (dest + cur.length) (scanned xs count).length :=
    ha.part (by omega) (by omega)
  have hm' : Mapped m (dest + cur.length) (scanned xs count).length :=
    hm.part (Nat.le_refl _) (by omega)
  rw [full_iff, strncat_reads hcur (h.copyable hm' ha' (Nat.le_refl _)) hle
    (h.stop_write ha' (Nat.le_refl _))]
  constructor
  · intro hin he
    exact not_readsWithin (by simp [he]) hin
  · intro hne
    have hsrc : src ≠ dest := by
      rintro rfl
      cases xs with
      | nil =>
        obtain ⟨c, hc, _⟩ := hcur.read (Nat.zero_le _)
        have hstop := h.stop (by omega)
        simp_all [scanned]
      | cons x xs => exact ha 0 (by simp) 0 (by omega) rfl
    refine readsWithin (by omega) (Nat.le_refl _) fun i hi => ?_
    simp only [List.mem_cons, mem_trail, Prod.mk.injEq, true_and, List.not_mem_nil] at hi
    grind

/-- Where one of two scans has ended there is no common byte but the terminator. -/
theorem ArrayAt.ended {c : UInt8} (h : ArrayAt m p xs count)
    (hlt : (scanned xs count).length < count)
    (hc : m.cell (p + (scanned xs count).length) = some c) : c = 0 := by
  rcases h.stop hlt with hnul | hnone
  · rw [hnul.2] at hc
    exact (Option.some.inj hc).symm
  · rw [hnone] at hc
    cases hc

/-- Where two scans part they have no common byte but the terminator. -/
theorem ArrayAt.parted {s t : List UInt8} {c : UInt8} (hl : ArrayAt m lhs xs count)
    (hr : ArrayAt m rhs ys count) (hs : scanned xs count = zs ++ s) (ht : scanned ys count = zs ++ t)
    (hpart : ∀ x y, s.head? = some x → t.head? = some y → x ≠ y) (hlt : zs.length < count)
    (hc : m.cell (lhs + zs.length) = some c) (hd : m.cell (rhs + zs.length) = some c) : c = 0 := by
  have hlz : Holds m lhs (zs ++ s) := hs ▸ hl.passed
  have hrz : Holds m rhs (zs ++ t) := ht ▸ hr.passed
  cases s with
  | nil =>
    rw [List.append_nil] at hs
    exact hl.ended (hs ▸ hlt) (hs ▸ hc)
  | cons x s =>
    cases t with
    | nil =>
      rw [List.append_nil] at ht
      exact hr.ended (ht ▸ hlt) (ht ▸ hd)
    | cons y t =>
      rw [hlz.middle, Option.some.injEq] at hc
      rw [hrz.middle, Option.some.injEq] at hd
      exact absurd (hc.trans hd.symm) (hpart x y rfl rfl)

/-- The part that two scans have in common reaches the bound only if the arrays are full and
equal. -/
theorem common_full_iff {s t : List UInt8} (hs : scanned xs count = zs ++ s)
    (ht : scanned ys count = zs ++ t)
    (hpart : ∀ x y, s.head? = some x → t.head? = some y → x ≠ y) :
    (Full xs count ∧ xs.take count = ys.take count) ↔ zs.length = count := by
  have hxle := scanned_length_le xs count
  have hyle := scanned_length_le ys count
  have hzx := congrArg List.length hs
  have hzy := congrArg List.length ht
  rw [List.length_append] at hzx hzy
  constructor
  · rintro ⟨hfull, htake⟩
    have hst : s = t := by
      have heq : scanned xs count = scanned ys count := by rw [scanned, scanned, htake]
      rw [hs, ht] at heq
      exact List.append_cancel_left heq
    have hnil : s = [] := by
      cases s with
      | nil => rfl
      | cons x s => exact absurd rfl (hpart x x rfl (hst ▸ rfl))
    rwa [full_iff, hs, hnil, List.append_nil] at hfull
  · intro hcount
    have hsx : s = [] := List.length_eq_zero_iff.mp (by omega)
    have hty : t = [] := List.length_eq_zero_iff.mp (by omega)
    have hxfull : Full xs count := full_iff.mpr (by omega)
    have hyfull : Full ys count := full_iff.mpr (by omega)
    refine ⟨hxfull, ?_⟩
    rw [← full_scanned hxfull, ← full_scanned hyfull, hs, ht, hsx, hty]

theorem strncmp_reads_iff (hl : ArrayAt m lhs xs count) (hr : ArrayAt m rhs ys count) :
    (ReadsWithin (after ((strncmp lhs rhs count).run (⟨m, []⟩ : Traced))).reads lhs xs count ∧
        ReadsWithin (after ((strncmp lhs rhs count).run (⟨m, []⟩ : Traced))).reads rhs ys count) ↔
      ¬ (Full xs count ∧ xs.take count = ys.take count) := by
  obtain ⟨zs, s, t, hs, ht, hpart⟩ := split_common (scanned xs count) (scanned ys count)
  rw [common_full_iff hs ht hpart]
  have hxle := scanned_length_le xs count
  have hzx : zs.length ≤ (scanned xs count).length := by rw [hs, List.length_append]; omega
  have hzy : zs.length ≤ (scanned ys count).length := by rw [ht, List.length_append]; omega
  have hlz : Holds m lhs (zs ++ s) := hs ▸ hl.passed
  have hrz : Holds m rhs (zs ++ t) := ht ▸ hr.passed
  have hz0 : 0 ∉ zs := fun h0 => scanned_nonzero xs count (hs ▸ List.mem_append_left s h0)
  obtain ⟨last, hreads, hlast, hin⟩ : ∃ last, (after ((strncmp lhs rhs count).run
      (⟨m, []⟩ : Traced))).reads = _ ∧ _ :=
    strncmp_reads hlz.left hrz.left hz0 (by omega) fun c => hl.parted hr hs ht hpart
  have hread : ∀ q i, (q, i) ∈ last ++ trail (fun i => [(rhs, i), (lhs, i), (rhs, i), (lhs, i),
      (rhs, i), (lhs, i)]) [] zs.length → i ≤ zs.length := by
    intro q i hi
    simp only [List.mem_append, List.mem_cons, mem_trail, Prod.mk.injEq, List.not_mem_nil] at hi
    grind
  rw [hreads]
  constructor
  · rintro ⟨hx, _⟩ hcount
    rw [hcount] at hlast
    exact not_readsWithin (List.mem_append_left _ hlast) hx
  · intro hne
    have hlt : zs.length < count := by omega
    exact ⟨readsWithin hlt hzx (hread lhs), readsWithin hlt hzy (hread rhs)⟩

end Scanning

/-- On any arrays the three functions read below their bound and up to the first NUL exactly if
no array is full, and strncmp also if its full arrays differ. -/
theorem bounded_reads_iff {m : Mem} {src rhs count : Nat} {xs ys : List UInt8}
    (hs : ArrayAt m src xs count) (hr : ArrayAt m rhs ys count) :
    (∀ dest, Mapped m dest count → Apart src xs.length dest count →
      (ReadsWithin (after ((strncpy dest src count).run (⟨m, []⟩ : Traced))).reads src xs count ↔
        ¬ Full xs count)) ∧
    (∀ dest cur, StringAt m dest cur →
      Mapped m (dest + cur.length) ((scanned xs count).length + 1) →
      Apart src xs.length dest (cur.length + (scanned xs count).length + 1) →
      (ReadsWithin (after ((strncat dest src count).run (⟨m, []⟩ : Traced))).reads src xs count ↔
        ¬ Full xs count)) ∧
    ((ReadsWithin (after ((strncmp src rhs count).run (⟨m, []⟩ : Traced))).reads src xs count ∧
        ReadsWithin (after ((strncmp src rhs count).run (⟨m, []⟩ : Traced))).reads rhs ys count) ↔
      ¬ (Full xs count ∧ xs.take count = ys.take count)) :=
  ⟨fun _ hm ha => strncpy_reads_iff hs hm ha,
    fun _ _ hcur hm ha => strncat_reads_iff hcur hs hm ha, strncmp_reads_iff hs hr⟩

/-- "ab" without a terminator in the last two bytes of the mapped memory, "a" at 5 and two bytes
of room at 3. -/
def edgeMem : Mem := image 3 [7, 7, 97, 0, 97, 98] (by decide) (by decide)

theorem bounded_reads_iff_example :
    (ReadsWithin (after ((strncpy 3 5 2).run (⟨edgeMem, []⟩ : Traced))).reads 5 [97, 0] 2 ↔
      ¬ Full [97, 0] 2) ∧
    (ReadsWithin (after ((strncmp 5 7 2).run (⟨edgeMem, []⟩ : Traced))).reads 5 [97, 0] 2 ∧
        ReadsWithin (after ((strncmp 5 7 2).run (⟨edgeMem, []⟩ : Traced))).reads 7 [97, 98] 2 ↔
      ¬ (Full [97, 0] 2 ∧ [97, 0].take 2 = ([97, 98] : List UInt8).take 2)) := by
  have hab : ArrayAt edgeMem 7 [97, 98] 2 := ⟨by decide, by decide⟩
  have ha : ArrayAt edgeMem 5 [97, 0] 2 := ⟨by decide, by decide⟩
  have h := bounded_reads_iff ha hab
  exact ⟨h.1 3 (by decide) (by decide), h.2.2⟩

/-- Copying an array of exactly two bytes with bound 2 reads a third one, and faults when memory
ends behind the array. -/
theorem strncpy_reads_past :
    fault? ((strncpy 3 7 2).run (⟨edgeMem, []⟩ : Traced)) = some .segmentation ∧
      ArrayAt edgeMem 7 [97, 98] 2 ∧
      ¬ ReadsWithin (after ((strncpy 3 7 2).run (⟨edgeMem, []⟩ : Traced))).reads 7 [97, 98] 2 :=
  ⟨by decide, ⟨by decide, by decide⟩, not_readsWithin (by decide)⟩

end ZligcString
