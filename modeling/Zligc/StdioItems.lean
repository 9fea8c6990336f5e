import Zligc.StdioStream

/-!
# What fread and fwrite count

Both hand the whole buffer to the system at once and return bytes, not items. The number
of bytes is right for items of one byte, as long as the system delivers all it can in one
read, and where nothing is transferred.
-/
namespace Stdio

open Effect CellMemory Zig Zligc OsFile

/-- The handle that a call finds in the record of `fd`. -/
def found (w : World) (fd : Stream) : Int32 := ((looked w).records fd).getD w.undefinedHandle

/-- What is left of the stream, if it is open for reading. -/
def left (w : World) (fd : Stream) : Option (List UInt8) :=
  match w.kernel.table (found w fd) with
  | none => none
  | some d => if d.readable then some ((w.kernel.contents d.inode).drop d.offset) else none

/-- The bytes that the system delivers to a request for `n` bytes. -/
def delivered (w : World) (fd : Stream) (n : Nat) : List UInt8 :=
  match left w fd with
  | none => []
  | some rest => (rest.take n).take (w.kernel.policy.amount w.kernel.clock (rest.take n).length)

/-- The system reports no error to the next read. -/
def readSucceeds (w : World) (fd : Stream) : Bool :=
  (left w fd).isSome && !w.kernel.policy.fails w.kernel.clock

/-- How many of `n` bytes the system writes. -/
def accepted (w : World) (fd : Stream) (n : Nat) : Nat :=
  match w.kernel.table (found w fd) with
  | none => 0
  | some d =>
    if d.writable then
      if w.kernel.policy.fails w.kernel.clock then w.kernel.policy.amount w.kernel.clock n else n
    else 0

/-- The system reports no error to the next write: it has written all the bytes. -/
def writeSucceeds (w : World) (fd : Stream) : Bool :=
  ((w.kernel.table (found w fd)).any (·.writable)) && !w.kernel.policy.fails w.kernel.clock

/-- fread has returned the number of complete items it obtained and stored their bytes, and fewer
items than were asked for only at the end of the file or on an error. -/
structure ItemsRead (w : World) (fd : Stream) (buffer size count n : Nat) (w' : World) : Prop where
  returned : (fread buffer size count (some fd)).run w = .ok n w'
  le_count : n ≤ count
  nothing : size = 0 ∨ count = 0 → n = 0
  obtained : (delivered w fd (size * count)).length ≤ size * count
  items : 0 < size → n = (delivered w fd (size * count)).length / size
  stored : w'.mem = write w.mem buffer (delivered w fd (size * count))
  short : 0 < size → n < count →
    left w fd = some (delivered w fd (size * count)) ∨ readSucceeds w fd = false

/-- The next read of `n` bytes is not cut short. -/
def Whole (w : World) (fd : Stream) (n : Nat) : Prop :=
  ∀ rest, left w fd = some rest → delivered w fd n = rest.take n

/-- The number of bytes that a read will deliver is the number of items. -/
def ReadCounts (w : World) (fd : Stream) (size count : Nat) : Prop :=
  size * count < 0x10000000000000000 ∧ (size = 0 ∨ count = 0 ∨
    if readSucceeds w fd then left w fd = some [] ∨ (size = 1 ∧ Whole w fd count)
    else (delivered w fd (size * count)).length < size)

section Items

variable {w : World} {fd : Stream} {rest : List UInt8} {buffer size count n : Nat}

theorem delivered_left (h : left w fd = some rest) (n : Nat) : delivered w fd n =
    (rest.take n).take (w.kernel.policy.amount w.kernel.clock (rest.take n).length) := by
  rw [delivered, h]

theorem delivered_length_le (w : World) (fd : Stream) (n : Nat) :
    (delivered w fd n).length ≤ n := by
  unfold delivered
  split
  · exact Nat.zero_le n
  · rw [List.length_take, List.length_take]
    omega

/-- What is delivered is the beginning of what is left. -/
theorem delivered_take (h : left w fd = some rest) (n : Nat) :
    delivered w fd n = rest.take (delivered w fd n).length := by
  rw [delivered_left h, List.take_take, List.take_eq_take_iff]
  simp only [List.length_take]
  omega

/-- A read that succeeds delivers something unless nothing is left. -/
theorem left_of_delivered_nil (hok : readSucceeds w fd = true) (hn : 0 < n)
    (h : delivered w fd n = []) : left w fd = some [] := by
  rw [readSucceeds, Bool.and_eq_true, Bool.not_eq_true', Option.isSome_iff_exists] at hok
  obtain ⟨⟨rest, hrest⟩, hfails⟩ := hok
  rw [hrest]
  rw [delivered_left hrest] at h
  cases rest with
  | nil => rfl
  | cons b rest =>
    obtain ⟨n, rfl⟩ : ∃ l, n = l + 1 := ⟨n - 1, by omega⟩
    have hpos := w.kernel.policy.amount_pos w.kernel.clock _ hfails
      (by simp : 0 < ((b :: rest).take (n + 1)).length)
    have hlen := congrArg List.length h
    simp only [List.length_take, List.length_cons, List.length_nil] at hlen hpos
    omega

theorem read_reply (w : World) (fd : Stream) (n : Nat) :
    (w.kernel.read (found w fd) n).2 = (delivered w fd n, readSucceeds w fd) := by
  unfold Kernel.read delivered readSucceeds left
  cases w.kernel.table (found w fd) with
  | none => rfl
  | some d => cases hd : d.readable <;> simp [hd]

theorem write_reply (w : World) (fd : Stream) (bytes : List UInt8) :
    (w.kernel.write (found w fd) bytes).2 = writeSucceeds w fd := by
  unfold Kernel.write writeSucceeds
  cases w.kernel.table (found w fd) with
  | none => rfl
  | some d => cases hd : d.writable <;> simp [hd]

/-- An operation after the lookup of its handle. -/
theorem apply_looked {β : Type} (w : World) (fd : Stream) (f : Kernel → Int32 → Kernel × β) :
    ∃ w', (File.apply fd f).run (looked w) = .ok (f w.kernel (found w fd)).2 w' ∧
      w'.mem = w.mem := by
  have hrun := apply_run fd f (looked w)
  rw [looked_kernel, looked_undefinedHandle] at hrun
  exact ⟨_, hrun, looked_mem w⟩

theorem fread_run (fd : Stream) (hfit : size * count < 0x10000000000000000)
    (hmap : Mapped w.mem buffer (size * count)) :
    ∃ w', (fread buffer size count (some fd)).run w =
        .ok (if readSucceeds w fd then (delivered w fd (size * count)).length else 0) w' ∧
      w'.mem = write w.mem buffer (delivered w fd (size * count)) := by
  have hmul : count * size = size * count := Nat.mul_comm count size
  obtain ⟨w₁, hread, hmem⟩ := apply_looked w fd (·.read · (size * count))
  rw [read_reply] at hread
  have hfill : (onMem (Slice.fill buffer (delivered w fd (size * count)))).run w₁ =
      .ok () { w₁ with mem := write w.mem buffer (delivered w fd (size * count)) } := by
    rw [run_onMem, hmem, Slice.fill_run]
    exact hmap.part (Nat.le_refl _) (Nat.add_le_add_left (delivered_length_le w fd _) _)
  refine ⟨{ w₁ with mem := write w.mem buffer (delivered w fd (size * count)) }, ?_, rfl⟩
  rw [fread, bind_ok (lookup_some fd w), bind_ok (mul_run _ (by rwa [hmul])), hmul, File.read,
    bind_ok hread]
  exact (bind_ok hfill _).trans rfl

/-- A product that does not fit stops the call before it has moved a byte. -/
theorem mul_stops (hover : ¬ size * count < 0x10000000000000000) (w : World) :
    (mul count size : Run World Nat).run w = .error .integerOverflow w := by
  rw [mul, if_neg (by rwa [Nat.mul_comm])]
  rfl

theorem fread_overflow (hover : ¬ size * count < 0x10000000000000000) :
    (fread buffer size count (some fd)).run w = .error .integerOverflow (looked w) := by
  rw [fread, bind_ok (lookup_some fd w), bind_error (mul_stops hover _)]

theorem fwrite_overflow (hover : ¬ size * count < 0x10000000000000000) :
    (fwrite buffer size count (some fd)).run w = .error .integerOverflow (looked w) := by
  rw [fwrite, fwriteFrom, bind_ok (lookup_some fd w), bind_error (mul_stops hover _)]

/-- A number is its own quotient only if it is zero or the divisor is one. -/
theorem eq_div_self_iff {a b : Nat} (hb : 0 < b) : a = a / b ↔ a = 0 ∨ b = 1 := by
  constructor
  · intro h
    by_contra hno
    rw [not_or] at hno
    have hlt := Nat.div_lt_self (Nat.pos_of_ne_zero hno.1) (by omega : 1 < b)
    omega
  · rintro (rfl | rfl)
    · rw [Nat.zero_div]
    · rw [Nat.div_one]

/-- A read that is not cut short delivers the beginning of what is left, and all of it if that is
not enough. -/
theorem whole_iff (hrest : left w fd = some rest) :
    Whole w fd n ↔ ((delivered w fd n).length < n → left w fd = some (delivered w fd n)) := by
  constructor
  · intro hwhole hlt
    have htake := hwhole rest hrest
    rw [htake, List.length_take] at hlt
    rw [htake, hrest, List.take_of_length_le (by omega)]
  · intro hshort rest' hrest'
    obtain rfl : rest = rest' := Option.some.inj (hrest.symm.trans hrest')
    rcases Nat.lt_or_ge (delivered w fd n).length n with hlt | hge
    · obtain rfl : rest = delivered w fd n := Option.some.inj (hrest.symm.trans (hshort hlt))
      rw [List.take_of_length_le (Nat.le_of_lt hlt)]
    · have hle := delivered_length_le w fd n
      have htake := delivered_take hrest n
      rwa [show (delivered w fd n).length = n by omega] at htake

theorem readSucceeds_left (h : readSucceeds w fd = true) : ∃ rest, left w fd = some rest := by
  rw [readSucceeds, Bool.and_eq_true] at h
  exact Option.isSome_iff_exists.mp h.1

/-- When the number that fread returns is the number of items. -/
theorem counted_iff (w : World) (fd : Stream) (hsize : 0 < size) (hcount : 0 < count)
    (hn : n = if readSucceeds w fd then (delivered w fd (size * count)).length else 0) :
    (n ≤ count ∧ n = (delivered w fd (size * count)).length / size ∧
      (n < count → left w fd = some (delivered w fd (size * count)) ∨ readSucceeds w fd = false)) ↔
    if readSucceeds w fd then left w fd = some [] ∨ (size = 1 ∧ Whole w fd count)
    else (delivered w fd (size * count)).length < size := by
  have hasked := Nat.mul_pos hsize hcount
  cases hok : readSucceeds w fd with
  | false =>
    obtain rfl : n = 0 := by simpa [hok] using hn
    have hzero : 0 = (delivered w fd (size * count)).length / size ↔
        (delivered w fd (size * count)).length < size := by
      rw [eq_comm, Nat.div_eq_zero_iff_lt hsize]
    simp [hzero]
  | true =>
    obtain ⟨rest, hrest⟩ := readSucceeds_left hok
    obtain rfl : n = (delivered w fd (size * count)).length := by simpa [hok] using hn
    simp only [if_true, Bool.true_eq_false, or_false]
    constructor
    · rintro ⟨_, hitems, hshort⟩
      rcases (eq_div_self_iff hsize).mp hitems with hzero | rfl
      · exact Or.inl (left_of_delivered_nil hok hasked (List.length_eq_zero_iff.mp hzero))
      · rw [Nat.one_mul] at hshort
        exact Or.inr ⟨rfl, (whole_iff hrest).mpr hshort⟩
    · rintro (hnil | ⟨rfl, hwhole⟩)
      · have hnone : delivered w fd (size * count) = [] := by
          rw [delivered_left hnil]
          simp
        rw [hnone]
        exact ⟨Nat.zero_le _, (Nat.zero_div _).symm, fun _ => hnil⟩
      · rw [Nat.one_mul, Nat.div_one]
        exact ⟨delivered_length_le w fd count, rfl, (whole_iff hrest).mp hwhole⟩

theorem reads_iff (hmap : size * count < 0x10000000000000000 →
    Mapped w.mem buffer (size * count)) :
    (∃ n w', ItemsRead w fd buffer size count n w') ↔ ReadCounts w fd size count := by
  by_cases hfit : size * count < 0x10000000000000000
  · obtain ⟨w', hrun, hmem⟩ := fread_run fd hfit (hmap hfit)
    have hle := delivered_length_le w fd (size * count)
    by_cases hnone : size = 0 ∨ count = 0
    · have hzero : (delivered w fd (size * count)).length = 0 := by
        have hask : size * count = 0 := Nat.mul_eq_zero.mpr hnone
        omega
      rw [hzero, ite_self] at hrun
      have hcounts : ReadCounts w fd size count := ⟨hfit, hnone.imp_right Or.inl⟩
      refine iff_of_true ⟨0, w', hrun, Nat.zero_le _, fun _ => rfl, hle, ?_, hmem, ?_⟩ hcounts
      · exact fun _ => by rw [hzero, Nat.zero_div]
      · exact fun hs hlt => by omega
    · rw [not_or] at hnone
      have hsize := Nat.pos_of_ne_zero hnone.1
      have hiff := counted_iff w fd hsize (Nat.pos_of_ne_zero hnone.2) rfl
      constructor
      · rintro ⟨n, w₁, h⟩
        obtain ⟨rfl, rfl⟩ := EStateM.Result.ok.inj (h.returned.symm.trans hrun)
        exact ⟨hfit, Or.inr (Or.inr (hiff.mp ⟨h.le_count, h.items hsize, h.short hsize⟩))⟩
      · rintro ⟨_, hzero | hzero | hcase⟩
        · exact absurd hzero hnone.1
        · exact absurd hzero hnone.2
        · obtain ⟨hcount, hitems, hshort⟩ := hiff.mpr hcase
          exact ⟨_, w', hrun, hcount, fun hzero => absurd hzero (not_or.mpr hnone), hle,
            fun _ => hitems, hmem, fun _ => hshort⟩
  · refine iff_of_false ?_ fun h => hfit h.1
    rintro ⟨n, w', h⟩
    have hrun := h.returned
    rw [fread_overflow hfit] at hrun
    cases hrun

end Items

end Stdio
