import Zligc.StdioItems

/-!
# The position of a stream

fseek, rewind and ftell share one cursor with the transfers, which move it by the bytes they move.
A seek from the cursor to a place before the file is reported as an error. One from the start of
the file ends in the cast of its offset, and one from an unknown origin in a panic.
-/
namespace Stdio

open Effect CellMemory Zig Zligc OsFile

inductive Operation where
  | fseek (offset : Int64) (origin : Int32)
  | rewind
  | ftell
  | fread (buffer size count : Nat)
  | fwrite (buffer size count : Nat)
  | fgetc
  | fputc (ch : Int32)
  deriving DecidableEq, Repr

/-- Perform an operation for its result. -/
def Operation.run (fd : Stream) : Operation → Run World Int
  | .fseek offset origin => Int32.toInt <$> Stdio.fseek (some fd) offset origin
  | .rewind => (fun _ => 0) <$> Stdio.rewind (some fd)
  | .ftell => Int64.toInt <$> Stdio.ftell (some fd)
  | .fread buffer size count => Int.ofNat <$> Stdio.fread buffer size count (some fd)
  | .fwrite buffer size count => Int.ofNat <$> Stdio.fwrite buffer size count (some fd)
  | .fgetc => Int32.toInt <$> Stdio.fgetc (some fd)
  | .fputc ch => Int32.toInt <$> Stdio.fputc ch (some fd)

def Operation.transfers : Operation → Bool
  | .fread .. | .fwrite .. | .fgetc | .fputc _ => true
  | .fseek .. | .rewind | .ftell => false

/-- How many bytes the system moves for an operation. -/
def Operation.moved (w : World) (fd : Stream) : Operation → Nat
  | .fread _ size count => (delivered w fd (size * count)).length
  | .fwrite _ size count => accepted w fd (size * count)
  | .fgetc => (delivered w fd 1).length
  | .fputc _ => accepted w fd 1
  | .fseek .. | .rewind | .ftell => 0

/-- Where a seek leads from the position `p`, for the origins SEEK_SET and SEEK_CUR. -/
def target (p : Nat) (offset : Int64) (origin : Int32) : Option Int :=
  if origin = 0 then some offset.toInt
  else if origin = 1 then some (p + offset.toInt)
  else none

/-- The positions in a file are those of an `off_t`. -/
def IsPosition (t : Int) : Prop := 0 ≤ t ∧ t < 0x8000000000000000

/-- The cursor model: at the position `p` an operation that moves `n` bytes returns `r` and leaves
the cursor at another position. -/
inductive Positioned (n p : Nat) : Operation → Int → Nat → Prop where
  | sought {offset : Int64} {origin : Int32} {t : Int} : target p offset origin = some t →
      IsPosition t → Positioned n p (.fseek offset origin) 0 t.toNat
  | refused {offset : Int64} {origin : Int32} {r : Int} :
      (∀ t, target p offset origin = some t → ¬ IsPosition t) → r ≠ 0 →
      Positioned n p (.fseek offset origin) r p
  | rewound : Positioned n p .rewind 0 0
  | told : Positioned n p .ftell p p
  | transferred {op : Operation} {r : Int} : op.transfers = true → Positioned n p op r (p + n)

/-- The arguments of a transfer are in order, and a position that is told is an `off_t`. -/
def Operation.Valid (w : World) (p : Nat) : Operation → Prop
  | .ftell => IsPosition p
  | .fread buffer size count | .fwrite buffer size count =>
    size * count < 0x10000000000000000 ∧ Mapped w.mem buffer (size * count)
  | .fputc ch => 0 ≤ ch.toInt ∧ ch.toInt < 256
  | .fseek .. | .rewind | .fgetc => True

/-- Every operation of a run does what the cursor model says, and a valid one is never stopped. -/
def Follows (fd : Stream) : List Operation → World → Nat → Prop
  | [], _, _ => True
  | op :: ops, w, p =>
    match (op.run fd).run w with
    | .ok r w' => ∃ p', Positioned (op.moved w fd) p op r p' ∧
        (∃ h d, Held w' fd h d ∧ d.offset = p') ∧ Follows fd ops w' p'
    | .error _ _ => ¬ op.Valid w p

/-- A seek starts from the cursor, or from the start of the file with an offset that is not
negative. -/
def Operation.Clean : Operation → Prop
  | .fseek offset origin => (origin = 0 ∧ 0 ≤ offset.toInt) ∨ origin = 1
  | _ => True

/-- The system reports no error to the positioning operations of a run but those of lseek. -/
def ActsAsLseek (w : World) (ops : List Operation) : Prop :=
  ∀ j op, ops[j]? = some op → op.transfers = false →
    w.kernel.policy.fails (w.kernel.clock + j) = false

/-- From `w` to `w'` one operation of the system took the stream to the position `p`. -/
structure Placed (w w' : World) (fd : Stream) (h : Int32) (d : Description) (p : Nat) : Prop where
  held : Held w' fd h { d with offset := p }
  policy : w'.kernel.policy = w.kernel.policy
  clock : w'.kernel.clock = w.kernel.clock + 1

/-- The same of the system alone. -/
structure Put (k k' : Kernel) (h : Int32) (d : Description) (p : Nat) : Prop where
  described : k'.table h = some { d with offset := p }
  policy : k'.policy = k.policy
  clock : k'.clock = k.clock + 1

section Kernels

variable {k : Kernel} {h : Int32} {d : Description}

theorem put_tick (hd : k.table h = some d) : Put k k.tick h d d.offset := ⟨hd, rfl, rfl⟩

theorem put_seek (hd : k.table h = some d) (p : Nat) : Put k (k.seek h p).tick h d p := by
  constructor
  · exact (congrFun (Kernel.seek_table k hd p) h).trans (Function.update_self ..)
  · exact Kernel.seek_policy k h p
  · exact congrArg (· + 1) (Kernel.seek_clock k h p)

theorem put_read (hd : k.table h = some d) (n : Nat) :
    Put k (k.read h n).1 h d (d.offset + (k.read h n).2.1.length) := by
  unfold Kernel.read
  split
  · rename_i hnone
    cases hd.symm.trans hnone
  · rename_i d' hd'
    obtain rfl : d' = d := Option.some.inj (hd'.symm.trans hd)
    split
    · exact put_seek hd _
    · exact put_tick hd

/-- How many bytes a write moves. -/
theorem put_write (hd : k.table h = some d) (bytes : List UInt8) :
    Put k (k.write h bytes).1 h d (d.offset + if d.writable then
      if k.policy.fails k.clock then k.policy.amount k.clock bytes.length else bytes.length
      else 0) := by
  unfold Kernel.write
  split
  · rename_i hnone
    cases hd.symm.trans hnone
  · rename_i d' hd'
    obtain rfl : d' = d := Option.some.inj (hd'.symm.trans hd)
    split
    · have hle := k.policy.amount_le k.clock bytes.length
      have hlen : (if k.policy.fails k.clock = true then
          bytes.take (k.policy.amount k.clock bytes.length) else bytes).length =
          if k.policy.fails k.clock = true then k.policy.amount k.clock bytes.length
          else bytes.length := by
        split
        · rw [List.length_take, Nat.min_eq_left hle]
        · rfl
      rw [← hlen]
      obtain ⟨hput, hpolicy, hclock⟩ := put_seek (k := { k with
        contents := Function.update k.contents d'.inode
          (writeAt (k.contents d'.inode) d'.offset (if k.policy.fails k.clock then
            bytes.take (k.policy.amount k.clock bytes.length) else bytes)) }) hd _
      exact ⟨hput, hpolicy, hclock⟩
    · exact put_tick hd

theorem seekTo_legal (hd : k.table h = some d) (hok : k.policy.fails k.clock = false) {p : Nat}
    (hp : p < 0x8000000000000000) : k.seekTo h p = ((k.seek h p).tick, true) := by
  rw [Kernel.seekTo, if_pos]
  simp [hd, hp, hok]

theorem seekForward_legal (hd : k.table h = some d) (hok : k.policy.fails k.clock = false)
    {amount : Int} (hp : IsPosition (d.offset + amount)) :
    k.seekForward h amount = ((k.seek h (d.offset + amount).toNat).tick, true) := by
  rw [IsPosition] at hp
  simp [Kernel.seekForward, hd, hp, hok]

theorem seekForward_refused (hd : k.table h = some d) {amount : Int}
    (hp : ¬ IsPosition (d.offset + amount)) : k.seekForward h amount = (k.tick, false) := by
  simp only [Kernel.seekForward, hd]
  rw [if_neg]
  exact fun h => hp ⟨h.1, h.2.1⟩

end Kernels

section Steps

variable {w : World} {fd : Stream} {h : Int32} {d : Description} {p : Nat}

/-- An operation on the handle of a stream after its lookup. -/
theorem Held.used {β : Type} {f : Kernel → Int32 → Kernel × β} {k : Kernel} {b : β}
    (hw : Held w fd h d) (hf : f w.kernel h = (k, b)) (hput : Put w.kernel k h d p) :
    ∃ w', (File.apply fd f).run (Stdio.looked w) = .ok b w' ∧ w'.mem = w.mem ∧
      ∀ m, Placed w { w' with mem := m } fd h d p := by
  obtain ⟨hrecord, hown, _⟩ := hw.looked
  have hrun := hw.looked.apply f
  rw [looked_kernel, hf] at hrun
  exact ⟨_, hrun, looked_mem w, fun m =>
    ⟨⟨hrecord, hown, hput.described⟩, hput.policy, hput.clock⟩⟩

theorem Held.found_eq (hw : Held w fd h d) : found w fd = h := by
  rw [found, hw.looked.record, Option.getD_some]

/-- The bytes that a read of an open stream moves. -/
theorem Held.read (hw : Held w fd h d) (n : Nat) :
    ∃ w', (File.read fd n).run (Stdio.looked w) =
        .ok (delivered w fd n, readSucceeds w fd) w' ∧ w'.mem = w.mem ∧
      ∀ m, Placed w { w' with mem := m } fd h d (d.offset + (delivered w fd n).length) := by
  have hreply := read_reply w fd n
  rw [hw.found_eq] at hreply
  have hput := put_read hw.described n
  rw [hreply] at hput
  exact hw.used (Prod.ext rfl hreply) hput

theorem Held.write (hw : Held w fd h d) (bytes : List UInt8) :
    ∃ w', (File.write fd bytes).run (Stdio.looked w) = .ok (writeSucceeds w fd) w' ∧
      w'.mem = w.mem ∧
      ∀ m, Placed w { w' with mem := m } fd h d (d.offset + accepted w fd bytes.length) := by
  have hreply := write_reply w fd bytes
  rw [hw.found_eq] at hreply
  have hput : Put w.kernel (w.kernel.write h bytes).1 h d
      (d.offset + accepted w fd bytes.length) := by
    rw [accepted, hw.found_eq, hw.described]
    exact put_write hw.described bytes
  exact hw.used (f := (·.write · bytes)) (Prod.ext rfl hreply) hput

/-- An operation does what the cursor model says, or it is stopped and was not valid. -/
def Step (fd : Stream) (op : Operation) (w : World) (h : Int32) (d : Description) : Prop :=
  (∃ r w' p', (op.run fd).run w = .ok r w' ∧ Positioned (op.moved w fd) d.offset op r p' ∧
    Placed w w' fd h d p') ∨
  ∃ e w', (op.run fd).run w = .error e w' ∧ ¬ op.Valid w d.offset

theorem seek_set_steps (hw : Held w fd h d) (hok : w.kernel.policy.fails w.kernel.clock = false)
    {offset : Int64} (hoffset : 0 ≤ offset.toInt) : Step fd (.fseek offset 0) w h d := by
  have hlt : offset.toInt < 0x8000000000000000 := offset.toInt_lt
  obtain ⟨w', hrun, _, hplaced⟩ := hw.used (f := (·.seekTo · offset.toInt.toNat))
    (seekTo_legal hw.described hok (by omega)) (put_seek hw.described _)
  have hcall : (fseek (some fd) offset 0).run w = .ok 0 w' := by
    rw [fseek, bind_ok (lookup_some fd w), if_pos rfl, bind_ok (castUsize_run _ hoffset),
      File.seekTo, bind_ok hrun]
    rfl
  exact Or.inl ⟨0, w', _, map_ok hcall _, .sought rfl ⟨hoffset, hlt⟩, hplaced w'.mem⟩

theorem seek_cur_steps (hw : Held w fd h d) (hok : w.kernel.policy.fails w.kernel.clock = false)
    (offset : Int64) : Step fd (.fseek offset 1) w h d := by
  have hcall : ∀ {success : Bool} {w' : World},
      (File.seekForward fd offset.toInt).run (looked w) = .ok success w' →
      (fseek (some fd) offset 1).run w = .ok (if success then 0 else -1) w' := by
    intro success w' hrun
    rw [fseek, bind_ok (lookup_some fd w), if_neg (by decide), if_pos rfl, bind_ok hrun]
    cases success <;> rfl
  left
  by_cases hp : IsPosition (d.offset + offset.toInt)
  · obtain ⟨w', hrun, _, hplaced⟩ := hw.used (f := (·.seekForward · offset.toInt))
      (seekForward_legal hw.described hok hp) (put_seek hw.described _)
    exact ⟨0, w', _, map_ok (hcall hrun) _, .sought rfl hp, hplaced w'.mem⟩
  · obtain ⟨w', hrun, _, hplaced⟩ := hw.used (f := (·.seekForward · offset.toInt))
      (seekForward_refused hw.described hp) (put_tick hw.described)
    have hillegal : ∀ t, target d.offset offset 1 = some t → ¬ IsPosition t := by
      intro t ht
      obtain rfl : (d.offset : Int) + offset.toInt = t := Option.some.inj ht
      exact hp
    exact ⟨-1, w', _, map_ok (hcall hrun) _, .refused hillegal (by decide), hplaced w'.mem⟩

theorem rewind_steps (hw : Held w fd h d) (hok : w.kernel.policy.fails w.kernel.clock = false) :
    Step fd .rewind w h d := by
  obtain ⟨w', hrun, _, hplaced⟩ := hw.used (f := (·.seekTo · 0))
    (seekTo_legal hw.described hok (by decide)) (put_seek hw.described 0)
  have hcall : (rewind (some fd)).run w = .ok () w' := by
    rw [rewind, bind_ok (lookup_some fd w), File.seekTo, bind_ok hrun]
    rfl
  exact Or.inl ⟨0, w', 0, map_ok hcall _, .rewound, hplaced w'.mem⟩

theorem ftell_steps (hw : Held w fd h d) (hok : w.kernel.policy.fails w.kernel.clock = false) :
    Step fd .ftell w h d := by
  have hpos : w.kernel.getPos h = (w.kernel.tick, some d.offset) := by
    simp [Kernel.getPos, hw.described, hok]
  obtain ⟨w', hrun, _, hplaced⟩ := hw.used (f := Kernel.getPos) hpos (put_tick hw.described)
  have hcall : (ftell (some fd)).run w = (castLong d.offset).run w' := by
    rw [ftell, bind_ok (lookup_some fd w), File.getPos, bind_ok hrun]
  by_cases hfit : d.offset < 0x8000000000000000
  · have hcast : (ftell (some fd)).run w = .ok (Int64.ofNat d.offset) w' := by
      rw [hcall, castLong, if_pos hfit]
      rfl
    have hvalue : (Int64.ofNat d.offset).toInt = d.offset := Int64.toInt_ofNat_of_lt hfit
    have htell := map_ok hcast Int64.toInt
    rw [hvalue] at htell
    exact Or.inl ⟨d.offset, w', d.offset, htell, .told, hplaced w'.mem⟩
  · have hcast : (ftell (some fd)).run w = .error .integerCast w' := by
      rw [hcall, castLong, if_neg hfit]
      rfl
    exact Or.inr ⟨_, w', map_error hcast _, fun hvalid => hfit (Int.ofNat_lt.mp hvalid.2)⟩

theorem fgetc_steps (hw : Held w fd h d) : Step fd .fgetc w h d := by
  obtain ⟨w', hrun, _, hplaced⟩ := hw.read 1
  have hcall : ∃ r, (fgetc (some fd)).run w = .ok r w' := by
    rw [fgetc, bind_ok (lookup_some fd w), bind_ok hrun]
    cases readSucceeds w fd with
    | true => exact ⟨_, rfl⟩
    | false => exact ⟨_, rfl⟩
  obtain ⟨r, hcall⟩ := hcall
  exact Or.inl ⟨_, w', _, map_ok hcall _, .transferred rfl, hplaced w'.mem⟩

theorem fputc_steps (hw : Held w fd h d) (ch : Int32) : Step fd (.fputc ch) w h d := by
  by_cases hch : 0 ≤ ch.toInt ∧ ch.toInt < 256
  · obtain ⟨w', hrun, _, hplaced⟩ := hw.write [UInt8.ofNat ch.toInt.toNat]
    have hcall : ∃ r, (fputc ch (some fd)).run w = .ok r w' := by
      rw [fputc, bind_ok (lookup_some fd w), bind_ok (castU8_run _ hch), bind_ok hrun]
      cases writeSucceeds w fd with
      | true => exact ⟨_, rfl⟩
      | false => exact ⟨_, rfl⟩
    obtain ⟨r, hcall⟩ := hcall
    exact Or.inl ⟨_, w', _, map_ok hcall _, .transferred rfl, hplaced w'.mem⟩
  · have hfault : (fputc ch (some fd)).run w = .error .integerCast (looked w) := by
      rw [fputc, bind_ok (lookup_some fd w), bind_error (castU8_fault _ hch)]
    exact Or.inr ⟨_, _, map_error hfault _, hch⟩

theorem fread_steps (hw : Held w fd h d) (buffer size count : Nat) :
    Step fd (.fread buffer size count) w h d := by
  by_cases hfit : size * count < 0x10000000000000000
  · obtain ⟨w', hrun, hmem, hplaced⟩ := hw.read (size * count)
    have hmul : count * size = size * count := Nat.mul_comm count size
    have hcall : (fread buffer size count (some fd)).run w =
        (do
          onMem (Slice.fill buffer (delivered w fd (size * count)))
          return if readSucceeds w fd then (delivered w fd (size * count)).length else 0 :
            Run World Nat).run w' := by
      rw [fread, bind_ok (lookup_some fd w), bind_ok (mul_run _ (by rwa [hmul])), hmul,
        bind_ok hrun]
    cases hfill : (Slice.fill buffer (delivered w fd (size * count))).run w'.mem with
    | ok _ m =>
      have honmem : (onMem (Slice.fill buffer (delivered w fd (size * count)))).run w' =
          .ok () { w' with mem := m } := by
        rw [run_onMem, hfill]
      rw [bind_ok honmem, EStateM.run_pure] at hcall
      exact Or.inl ⟨_, _, _, map_ok hcall _, .transferred rfl, hplaced m⟩
    | error e m =>
      have honmem : (onMem (Slice.fill buffer (delivered w fd (size * count)))).run w' =
          .error e { w' with mem := m } := by
        rw [run_onMem, hfill]
      rw [bind_error honmem] at hcall
      refine Or.inr ⟨e, _, map_error hcall _, fun hvalid => ?_⟩
      have hle := delivered_length_le w fd (size * count)
      have hpart : Mapped w'.mem buffer (delivered w fd (size * count)).length := by
        rw [hmem]
        exact hvalid.2.part (Nat.le_refl _) (Nat.add_le_add_left hle _)
      rw [Slice.fill_run hpart] at hfill
      cases hfill
  · exact Or.inr ⟨_, _, map_error (fread_overflow hfit) _, fun hvalid => hfit hvalid.1⟩

theorem fwrite_steps (hw : Held w fd h d) (buffer size count : Nat) :
    Step fd (.fwrite buffer size count) w h d := by
  by_cases hfit : size * count < 0x10000000000000000
  · have hmul : count * size = size * count := Nat.mul_comm count size
    have hcall : (fwrite buffer size count (some fd)).run w =
        (do
          let b ← onMem (Slice.slice buffer (size * count))
          if ← File.write fd b then return b.length else return 0 : Run World Nat).run
          (looked w) := by
      rw [fwrite, fwriteFrom, bind_ok (lookup_some fd w), bind_ok (mul_run _ (by rwa [hmul])), hmul]
    by_cases hmap : Mapped w.mem buffer (size * count)
    · obtain ⟨bs, hbs, hlen⟩ := hmap.holds
      have hslice : (onMem (Slice.slice buffer (size * count))).run (looked w) =
          .ok bs (looked w) := by
        apply onMem_same
        rw [looked_mem, ← hlen, Slice.slice_run hbs]
      obtain ⟨w', hrun, _, hplaced⟩ := hw.write bs
      rw [hlen] at hplaced
      rw [bind_ok hslice, bind_ok hrun] at hcall
      have hreturn : ∃ r, (fwrite buffer size count (some fd)).run w = .ok r w' := by
        rw [hcall]
        cases writeSucceeds w fd with
        | true => exact ⟨_, rfl⟩
        | false => exact ⟨_, rfl⟩
      obtain ⟨r, hreturn⟩ := hreturn
      exact Or.inl ⟨_, w', _, map_ok hreturn _, .transferred rfl, hplaced w'.mem⟩
    · have hslice : (onMem (Slice.slice buffer (size * count))).run (looked w) =
          .error .segmentation (looked w) := by
        rw [← looked_mem w] at hmap
        rw [run_onMem, Slice.slice_fault hfit hmap]
      rw [bind_error hslice] at hcall
      exact Or.inr ⟨_, _, map_error hcall _, fun hvalid => hmap hvalid.2⟩
  · exact Or.inr ⟨_, _, map_error (fwrite_overflow hfit) _, fun hvalid => hfit hvalid.1⟩

/-- One operation whose seek is clean. -/
theorem operation_steps (hw : Held w fd h d) {op : Operation} (hclean : op.Clean)
    (hok : op.transfers = false → w.kernel.policy.fails w.kernel.clock = false) :
    Step fd op w h d := by
  cases op with
  | fseek offset origin =>
    rcases hclean with ⟨rfl, hoffset⟩ | rfl
    · exact seek_set_steps hw (hok rfl) hoffset
    · exact seek_cur_steps hw (hok rfl) offset
  | rewind => exact rewind_steps hw (hok rfl)
  | ftell => exact ftell_steps hw (hok rfl)
  | fread buffer size count => exact fread_steps hw buffer size count
  | fwrite buffer size count => exact fwrite_steps hw buffer size count
  | fgetc => exact fgetc_steps hw
  | fputc ch => exact fputc_steps hw ch

theorem operations_follow (hw : Held w fd h d) {ops : List Operation} (hlseek : ActsAsLseek w ops)
    (hclean : ∀ op ∈ ops, op.Clean) : Follows fd ops w d.offset := by
  induction ops generalizing w d with
  | nil => trivial
  | cons op ops ih =>
    rw [List.forall_mem_cons] at hclean
    rw [Follows]
    rcases operation_steps hw hclean.1 (hlseek 0 op rfl) with
      ⟨r, w', p', hrun, hpositioned, hplaced⟩ | ⟨e, w', hrun, hinvalid⟩
    · rw [hrun]
      refine ⟨p', hpositioned, ⟨h, _, hplaced.held, rfl⟩, ?_⟩
      apply ih hplaced.held ?_ hclean.2
      intro j op' hop hpositions
      rw [hplaced.policy, hplaced.clock, Nat.add_assoc, Nat.add_comm 1]
      exact hlseek (j + 1) op' hop hpositions
    · rw [hrun]
      exact hinvalid

/-- A seek that is not clean is stopped. -/
theorem fseek_stops {offset : Int64} {origin : Int32}
    (hclean : ¬ Operation.Clean (.fseek offset origin)) (fd : Stream) (w : World) :
    ∃ e w', (Operation.run fd (.fseek offset origin)).run w = .error e w' := by
  rw [Operation.Clean, not_or] at hclean
  suffices hstop : ∃ e w', (fseek (some fd) offset origin).run w = .error e w' by
    obtain ⟨e, w', hrun⟩ := hstop
    exact ⟨e, w', map_error hrun _⟩
  rw [fseek, bind_ok (lookup_some fd w)]
  by_cases hset : origin = 0
  · have hcast : (castUsize offset.toInt : Run World Nat).run (looked w) =
        .error .integerCast (looked w) := by
      rw [castUsize, if_neg fun hoffset => hclean.1 ⟨hset, hoffset⟩]
      rfl
    rw [if_pos hset, bind_error hcast]
    exact ⟨_, _, rfl⟩
  · rw [if_neg hset, if_neg hclean.2]
    split
    · exact ⟨_, _, rfl⟩
    · exact ⟨_, _, rfl⟩

/-- A single seek follows the cursor model exactly if it is clean. -/
theorem fseek_follows_iff (hw : Held w fd h d) {offset : Int64} {origin : Int32}
    (hlseek : ActsAsLseek w [.fseek offset origin]) :
    Follows fd [.fseek offset origin] w d.offset ↔ Operation.Clean (.fseek offset origin) := by
  constructor
  · intro hfollows
    by_contra hclean
    obtain ⟨e, w', hrun⟩ := fseek_stops hclean fd w
    rw [Follows, hrun] at hfollows
    exact hfollows trivial
  · intro hclean
    exact operations_follow hw hlseek (List.forall_mem_singleton.mpr hclean)

end Steps

/-- Over every run whose seeks are clean the calls share the cursor of the model, and a seek to an
illegal place is refused. A seek that is not clean is the one call that breaks the model. -/
theorem positions_follow {w : World} {fd : Stream} {h : Int32} {d : Description}
    (hw : Held w fd h d) :
    (∀ ops, ActsAsLseek w ops → (∀ op ∈ ops, op.Clean) → Follows fd ops w d.offset) ∧
    ∀ offset origin, origin ≠ 2 → ActsAsLseek w [.fseek offset origin] →
      (Follows fd [.fseek offset origin] w d.offset ↔
        Operation.Clean (.fseek offset origin)) :=
  ⟨fun _ hlseek hclean => operations_follow hw hlseek hclean,
    fun _ _ _ hlseek => fseek_follows_iff hw hlseek⟩

theorem ready_lseek (mem : Mem) (input : List UInt8) (ops : List Operation) :
    ActsAsLseek (readyWorld mem input) ops := fun _ _ _ _ => rfl

theorem positions_follow_example :
    Follows .stdin_file [.fgetc, .fseek (-2) 1, .ftell, .fseek 2 0, .ftell]
      (readyWorld firstMem [104, 105, 10]) 0 :=
  (positions_follow (ready_stdin firstMem [104, 105, 10]).held).1 _ (ready_lseek _ _ _)
    (by simp [Operation.Clean])

/-- A seek to the byte before the file ends in a safety check, and one from an unknown origin in a
panic, where a seek back from the cursor returns an error. -/
theorem fseek_negative :
    fault? ((fseek (some .stdin_file) (-1) 0).run (readyWorld firstMem [])) = some .integerCast ∧
    fault? ((fseek (some .stdin_file) 0 7).run (readyWorld firstMem [])) =
      some (.panic "fseek unreachable") ∧
    value? ((fseek (some .stdin_file) (-1) 1).run (readyWorld firstMem [])) = some (-1) ∧
    ¬ Follows .stdin_file [.fseek (-1) 0] (readyWorld firstMem []) 0 ∧
    ¬ Follows .stdin_file [.fseek 0 7] (readyWorld firstMem []) 0 := by
  have hstdin := (ready_stdin firstMem []).held
  refine ⟨rfl, rfl, rfl, fun hfollows => ?_, fun hfollows => ?_⟩
  · have hclean := (fseek_follows_iff hstdin (ready_lseek _ _ _)).mp hfollows
    revert hclean
    simp [Operation.Clean]
  · have hclean := (fseek_follows_iff hstdin (ready_lseek _ _ _)).mp hfollows
    revert hclean
    simp [Operation.Clean]

end Stdio
