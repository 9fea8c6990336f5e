import Zligc.StringSearch
import Zligc.StringMemory
import Zligc.StdioOutput

/-!
# Character arguments

A `c_int` that stands for a character is cast to a byte with a check, where C
converts it modulo 256. Whether a function gets to the cast depends on its count
or its string; strchr compares the argument itself with 0 after its loop.
-/
namespace CharArgument

open Effect CellMemory Zig Zligc ZligcString Occurrence Stdio

variable {σ α : Type}

/-- The function does with the character what it does with the character converted to a byte, and
it hits no check. -/
def Converts (f : Int32 → Run σ α) (ch : Int32) (s : σ) : Prop :=
  (f ch).run s = (f (widen (byte ch))).run s ∧ fault? ((f ch).run s) = none

/-- The character passes the cast to `u8`. -/
def IsByte (ch : Int32) : Prop := 0 ≤ ch.toInt ∧ ch.toInt < 256

theorem widen_byte {ch : Int32} (h : IsByte ch) : widen (byte ch) = ch := by
  rw [byte, Int.emod_eq_of_lt h.1 h.2, widen_cast h]

section Conversion

variable {m : Mem} {p d count : Nat} {s : List UInt8} {ch : Int32}

theorem converts_byte {f : Int32 → Run σ α} {u v : σ} {a : α} (h : IsByte ch)
    (hrun : (f (widen (byte ch))).run u = .ok a v) : Converts f ch u := by
  rw [widen_byte h] at hrun
  constructor
  · rw [widen_byte h]
  · rw [hrun]
    rfl

/-- Where the cast is reached, only a byte passes it. -/
theorem byte_of_converts {f : Int32 → Run σ α} {u v : σ} (h : Converts f ch u)
    (hfault : ¬ IsByte ch → (f ch).run u = .error .integerCast v) : IsByte ch := by
  by_contra hno
  have hnone := h.2
  rw [hfault hno] at hnone
  cases hnone

theorem memset_fault (hcount : 0 < count) (h : ¬ IsByte ch) :
    (memset d ch count).run m = .error .integerCast m := by
  apply bind_error (loop_error (by decide) _) _
  simp [hcount, castU8_fault _ h]

theorem memset_converts (hd : Mapped m d count) :
    Converts (memset d · count) ch m ↔ count = 0 ∨ IsByte ch := by
  constructor
  · intro h
    rcases Nat.eq_zero_or_pos count with h0 | hpos
    · exact Or.inl h0
    · exact Or.inr (byte_of_converts h (memset_fault hpos))
  · rintro (rfl | h)
    · have hzero : ∀ c, (memset d c 0).run m = .ok d m := fun c =>
        bind_ok (a := ()) (loop_done (by decide) (by simp)) _
      exact ⟨(hzero _).trans (hzero _).symm, by rw [hzero]; rfl⟩
    · exact converts_byte h (memset_run (byte ch) hd)

theorem memchr_fault (hp : Mapped m p count) (hcount : 0 < count) (h : ¬ IsByte ch) :
    (memchr p ch count).run m = .error .integerCast m := by
  obtain ⟨b, hb⟩ := Option.isSome_iff_exists.mp (hp 0 hcount)
  rw [Nat.add_zero] at hb
  apply loop_error (by decide)
  simp [hcount, hb, castU8_fault _ h]

theorem memchr_converts (hp : Mapped m p count) :
    Converts (memchr p · count) ch m ↔ count = 0 ∨ IsByte ch := by
  constructor
  · intro h
    rcases Nat.eq_zero_or_pos count with h0 | hpos
    · exact Or.inl h0
    · exact Or.inr (byte_of_converts h (memchr_fault hp hpos))
  · rintro (rfl | h)
    · have hzero : ∀ c, (memchr p c 0).run m = .ok none m := fun c =>
        loop_done (by decide) (by simp)
      exact ⟨(hzero _).trans (hzero _).symm, by rw [hzero]; rfl⟩
    · obtain ⟨xs, hxs, rfl⟩ := hp.holds
      exact converts_byte h
        (memchr_yields hxs (byte ch) (A := fun _ _ => True) fun _ _ => trivial).run

theorem strchr_converts (hs : StringAt m p s) :
    Converts (strchr p) ch m ↔ IsByte ch ∨ (s = [] ∧ byte ch ≠ 0) := by
  constructor
  · intro h
    by_cases hbyte : IsByte ch
    · exact Or.inl hbyte
    · right
      by_cases hnil : s = []
      · subst hnil
        have hempty := fun c => (strchr_empty hs c (A := fun _ _ => True) trivial).run
        have hch : ch ≠ 0 := by
          rintro rfl
          exact hbyte ⟨by decide, by decide⟩
        refine ⟨rfl, fun h0 => ?_⟩
        have heq := h.1
        rw [hempty, hempty, if_neg hch, h0, widen_zero, if_pos rfl] at heq
        cases heq
      · exact absurd (byte_of_converts h fun hno => strchr_fault hs hnil hno rfl) hbyte
  · rintro (h | ⟨rfl, h0⟩)
    · exact converts_byte h (strchr_yields hs (byte ch) (A := fun _ _ => True) fun _ _ => trivial).run
    · have hempty := fun c => (strchr_empty hs c (A := fun _ _ => True) trivial).run
      have hch : ch ≠ 0 := by
        rintro rfl
        exact h0 rfl
      constructor
      · rw [hempty, hempty, if_neg hch, if_neg (by rwa [widen_eq_zero])]
      · rw [hempty]
        rfl

theorem fputc_converts (fd : Stream) (w : World) :
    Converts (fputc · (some fd)) ch w ↔ IsByte ch := by
  constructor
  · exact fun h => byte_of_converts h (fputc_fault fd w)
  · intro h
    obtain ⟨a, v, hrun⟩ : ∃ a v, (fputc (widen (byte ch)) (some fd)).run w = .ok a v := by
      rw [fputc, bind_ok (lookup_some fd w), bind_ok (castU8_widen _ _), File.write,
        bind_ok (apply_run _ _ _)]
      split <;> exact ⟨_, _, rfl⟩
    exact converts_byte h hrun

/-- strchr with a multiple of 256 finds the terminator only if the character is 0 itself. -/
theorem strchr_terminator (hs : StringAt m p s) (h0 : byte ch = 0) :
    (strchr p ch).run m = .ok (some (p + s.length)) m ↔ ch = 0 := by
  constructor
  · intro h
    by_contra hch
    by_cases hnil : s = []
    · subst hnil
      rw [(strchr_empty hs ch (A := fun _ _ => True) trivial).run, if_neg hch] at h
      cases h
    · rw [strchr_fault hs hnil (fun hbyte => hch ?_) rfl] at h
      · cases h
      · rw [← widen_byte hbyte, h0]
        rfl
  · rintro rfl
    have hrun := (strchr_yields hs 0 (A := fun _ _ => True) fun _ _ => trivial).run
    rwa [addressOf_concat, if_neg hs.nonzero, if_pos rfl] at hrun

/-- strchr stops at once where the character itself is. -/
theorem strchr_here {b : UInt8} (hb : m.cell p = some b) :
    (strchr p (widen b)).run m = .ok (some p) m := by
  rw [strchr, while_, EStateM.run_bind,
    loop_done (a := if b = 0 then .fell 0 else .returned (some p)) (t := m) (by decide)]
  · by_cases h0 : b = 0 <;> simp [h0]
  · by_cases h0 : b = 0 <;> simp [hb, h0]

/-- What memset has stored, memchr and strchr find with the same argument, if it is a byte. -/
theorem stored_found (hd : Mapped m d count) (hcount : 0 < count) :
    (∃ m', (memset d ch count).run m = .ok d m' ∧
      (memchr d ch count).run m' = .ok (some d) m' ∧ (strchr d ch).run m' = .ok (some d) m') ↔
      IsByte ch := by
  constructor
  · rintro ⟨m', hset, _⟩
    by_contra hno
    rw [memset_fault hcount hno] at hset
    cases hset
  · intro h
    have hset := memset_run (byte ch) hd
    have hlen : (List.replicate count (byte ch)).length = count := List.length_replicate
    have hheld := holds_write m d (List.replicate count (byte ch)) (by rwa [hlen])
    have hfirst := hheld.cell (i := 0) (by rwa [hlen])
    rw [Nat.add_zero, List.getElem_replicate] at hfirst
    have hfind := (memchr_yields hheld (byte ch) (A := fun _ _ => True) fun _ _ => trivial).run
    have hhere := strchr_here hfirst
    obtain ⟨n, rfl⟩ : ∃ n, count = n + 1 := ⟨count - 1, by omega⟩
    rw [hlen, widen_byte h] at hfind
    rw [widen_byte h] at hset hhere
    refine ⟨_, hset, hfind.trans ?_, hhere⟩
    simp [addressOf, List.replicate_succ]

end Conversion

theorem character_converted_iff (ch : Int32) {m : Mem} {d p q count n : Nat} {s : List UInt8}
    (hd : Mapped m d count) (hp : Mapped m p n) (hq : StringAt m q s) (fd : Stream) (w : World) :
    (Converts (memset d · count) ch m ↔ count = 0 ∨ IsByte ch) ∧
    (Converts (memchr p · n) ch m ↔ n = 0 ∨ IsByte ch) ∧
    (Converts (strchr q) ch m ↔ IsByte ch ∨ (s = [] ∧ byte ch ≠ 0)) ∧
    (Converts (fputc · (some fd)) ch w ↔ IsByte ch) ∧
    (byte ch = 0 → ((strchr q ch).run m = .ok (some (q + s.length)) m ↔ ch = 0)) ∧
    (0 < count → ((∃ m', (memset d ch count).run m = .ok d m' ∧
      (memchr d ch count).run m' = .ok (some d) m' ∧ (strchr d ch).run m' = .ok (some d) m') ↔
        IsByte ch)) :=
  ⟨memset_converts hd, memchr_converts hp, strchr_converts hq, fputc_converts fd w,
    strchr_terminator hq, stored_found hd⟩

theorem character_converted_iff_example :
    (Converts (memset 1 · 1) 97 orderedMem ↔ 1 = 0 ∨ IsByte 97) ∧
    (Converts (memchr 3 · 2) 97 orderedMem ↔ 2 = 0 ∨ IsByte 97) ∧
    (Converts (strchr 3) 97 orderedMem ↔ IsByte 97 ∨ ([97, 98] : List UInt8) = [] ∧ byte 97 ≠ 0) ∧
    (Converts (fputc · (some .stdout_file)) 97
      (startWorld orderedMem (OsFile.Kernel.started .lowest [])) ↔ IsByte 97) ∧
    (byte 97 = 0 → ((strchr 3 97).run orderedMem = .ok (some (3 + [97, 98].length)) orderedMem ↔
      (97 : Int32) = 0)) ∧
    (0 < 1 → ((∃ m', (memset 1 97 1).run orderedMem = .ok 1 m' ∧
      (memchr 1 97 1).run m' = .ok (some 1) m' ∧ (strchr 1 97).run m' = .ok (some 1) m') ↔
        IsByte 97)) :=
  character_converted_iff 97 (by decide) (by decide) (s := [97, 98]) ⟨by decide, by decide⟩
    .stdout_file _

/-- memset with the character -1 faults, and strchr of 256 in an empty string returns null. -/
theorem character_rejected :
    fault? ((memset 1 (-1) 1).run orderedMem) = some .integerCast ∧
      value? ((strchr 2 256).run orderedMem) = some none ∧
      value? ((strchr 2 (widen (byte 256))).run orderedMem) = some (some 2) ∧
      ¬ Converts (memset 1 · 1) (-1) orderedMem ∧ ¬ Converts (strchr 2) 256 orderedMem := by
  have hset : fault? ((memset 1 (-1) 1).run orderedMem) = some .integerCast := by decide
  have hraw : value? ((strchr 2 256).run orderedMem) = some none := by decide
  have hzero : value? ((strchr 2 (widen (byte 256))).run orderedMem) = some (some 2) := by decide
  refine ⟨hset, hraw, hzero, fun h => ?_, fun h => ?_⟩
  · rw [h.2] at hset
    cases hset
  · rw [h.1, hzero] at hraw
    cases hraw

end CharArgument
