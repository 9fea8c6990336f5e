import Zligc.StdioOutput
import Zligc.StdioPosition
import Zligc.RandomAccess

/-!
# Streams as files with a cursor

Reading, writing and positioning a stream are requests to a file with a cursor. The call returns
what the file replies, leaves the stream where the file is, and leaves streams on other
descriptors and files alone.
-/
namespace Stdio

open Effect CellMemory Zig Zligc OsFile Function
open RandomAccess

/-- No operation fails, and a read delivers all there is of what was asked for. -/
structure Regular (policy : Policy) : Prop where
  succeeds : ∀ n, policy.fails n = false
  whole : ∀ n k, policy.amount n k = k

/-- The file behind an open descriptor. -/
def cursor (k : Kernel) (d : Description) : Cursor :=
  ⟨k.contents d.inode, d.offset, d.readable, d.writable⟩

/-- From `k` to `k'` only the file behind `h` has changed, to `c`. -/
structure Turned (k k' : Kernel) (h : Int32) (d : Description) (c : Cursor) : Prop where
  table : k'.table = update k.table h (some { d with offset := c.offset })
  contents : k'.contents = update k.contents d.inode c.content
  policy : k'.policy = k.policy
  readable : c.readable = d.readable
  writable : c.writable = d.writable

/-- What a read reports of a reply. -/
def Reply.read : Reply → List UInt8 × Bool
  | .got bytes => (bytes, true)
  | _ => ([], false)

/-- What a write or a seek reports of a reply. -/
def Reply.success : Reply → Bool
  | .done => true
  | _ => false

section Kernels

variable {k : Kernel} {h : Int32} {d : Description}

theorem turned_tick (hd : k.table h = some d) : Turned k k.tick h d (cursor k d) := by
  refine ⟨?_, ?_, rfl, rfl, rfl⟩
  · exact (update_eq_self_iff.mpr hd.symm).symm
  · exact (update_eq_self _ _).symm

theorem turned_seek (hd : k.table h = some d) (p : Nat) :
    Turned k (k.seek h p).tick h d { cursor k d with offset := p } := by
  refine ⟨Kernel.seek_table k hd p, ?_, Kernel.seek_policy k h p, rfl, rfl⟩
  rw [Kernel.tick, Kernel.seek_contents]
  exact (update_eq_self _ _).symm

theorem read_turned (hd : k.table h = some d) (hk : Regular k.policy) (n : Nat) :
    ∃ k', k.read h n = (k', Reply.read (serve (.read n) (cursor k d)).1) ∧
      Turned k k' h d (serve (.read n) (cursor k d)).2 := by
  by_cases hr : d.readable = true
  · have hall : (((k.contents d.inode).drop d.offset).take n).take
        (k.policy.amount k.clock (((k.contents d.inode).drop d.offset).take n).length) =
        ((k.contents d.inode).drop d.offset).take n := by
      rw [hk.whole, List.take_length]
    rw [serve_read (c := cursor k d) hr n]
    refine ⟨_, ?_, turned_seek hd _⟩
    simp only [Kernel.read, hd, hr, if_true, hall, hk.succeeds, Bool.not_false, Reply.read, cursor]
  · rw [serve_read_refused (c := cursor k d) hr n]
    refine ⟨k.tick, ?_, turned_tick hd⟩
    simp only [Kernel.read, hd, hr, Reply.read]
    rfl

theorem write_turned (hd : k.table h = some d) (hk : Regular k.policy) (bytes : List UInt8) :
    ∃ k', k.write h bytes = (k', Reply.success (serve (.write bytes) (cursor k d)).1) ∧
      Turned k k' h d (serve (.write bytes) (cursor k d)).2 := by
  by_cases hw : d.writable = true
  · rw [serve_write (c := cursor k d) hw bytes]
    have htable := Kernel.seek_table { k with
      contents := update k.contents d.inode (writeAt (k.contents d.inode) d.offset bytes) } hd
      (d.offset + bytes.length)
    exact ⟨_, Kernel.write_all hd hw (hk.succeeds _) bytes,
      htable, Kernel.seek_contents _ _ _, Kernel.seek_policy _ _ _, rfl, rfl⟩
  · rw [serve_write_refused (c := cursor k d) hw bytes]
    refine ⟨k.tick, ?_, turned_tick hd⟩
    simp only [Kernel.write, hd, hw, Reply.success]
    rfl

theorem seekTo_turned (hd : k.table h = some d) (hk : Regular k.policy) (p : Nat) :
    ∃ k', k.seekTo h p = (k', Reply.success (serve (.seek p) (cursor k d)).1) ∧
      Turned k k' h d (serve (.seek p) (cursor k d)).2 := by
  by_cases hp : p < 0x8000000000000000
  · rw [serve_seek hp]
    exact ⟨_, seekTo_legal hd (hk.succeeds _) hp, turned_seek hd p⟩
  · rw [serve_seek_refused hp]
    refine ⟨k.tick, ?_, turned_tick hd⟩
    rw [Kernel.seekTo, if_neg fun hall => hp hall.2.1]
    rfl

theorem seekForward_turned (hd : k.table h = some d) (hk : Regular k.policy) (amount : Int) :
    ∃ k', k.seekForward h amount = (k', Reply.success (serve (.skip amount) (cursor k d)).1) ∧
      Turned k k' h d (serve (.skip amount) (cursor k d)).2 := by
  by_cases hp : IsPosition (d.offset + amount)
  · rw [serve_skip (c := cursor k d) hp]
    exact ⟨_, seekForward_legal hd (hk.succeeds _) hp, turned_seek hd _⟩
  · rw [serve_skip_refused (c := cursor k d) hp]
    exact ⟨k.tick, seekForward_refused hd hp, turned_tick hd⟩

theorem read_length (k : Kernel) (h : Int32) (n : Nat) : (k.read h n).2.1.length ≤ n := by
  unfold Kernel.read
  split
  · exact Nat.zero_le n
  · split
    · exact Nat.le_trans (List.length_take_le' _ _) (List.length_take_le n _)
    · exact Nat.zero_le n

end Kernels

section Handles

variable {w : World} {fd : Stream} {h : Int32} {d : Description} {c : Cursor}

/-- The stream `fd` is open as the file `c`. -/
def Shows (w : World) (fd : Stream) (c : Cursor) : Prop :=
  ∃ h d, Open w fd h d ∧ cursor w.kernel d = c

/-- From `w` to `w'` only the stream `fd` was used, and it is the file `c` now. -/
structure Became (w w' : World) (fd : Stream) (c : Cursor) : Prop where
  shows : Shows w' fd c
  beside : Beside fd w w'
  policy : w'.kernel.policy = w.kernel.policy
  undefinedByte : w'.undefinedByte = w.undefinedByte

/-- An operation that turns the file behind the handle of a stream. -/
theorem Open.turned {β : Type} {f : Kernel → Int32 → Kernel × β} {k : Kernel} {b : β}
    (hw : Open w fd h d) (hf : f w.kernel h = (k, b)) (hk : Turned w.kernel k h d c) :
    ∃ w', (File.apply fd f).run w = .ok b w' ∧ w'.mem = w.mem ∧ Became w w' fd c := by
  have hrun := hw.held.apply f
  rw [hf] at hrun
  refine ⟨_, hrun, rfl, ?_, ?_, hk.policy, rfl⟩
  · refine ⟨h, { d with offset := c.offset }, ⟨hw.moved rfl rfl hk.table, ?_⟩, ?_⟩
    · simp only [hk.policy]
      exact hw.reliable
    obtain ⟨content, offset, readable, writable⟩ := c
    obtain rfl : readable = d.readable := hk.readable
    obtain rfl : writable = d.writable := hk.writable
    simp only [cursor, hk.contents, update_self]
  · refine hw.beside rfl rfl hk.table hk.policy fun i hi => ?_
    exact (congrFun hk.contents i).trans (update_of_ne hi _ _)

theorem Became.trans {w' w'' : World} {c' : Cursor} (hw : Open w fd h d) (hb : Became w w' fd c)
    (hb' : Became w' w'' fd c') : Became w w'' fd c' :=
  ⟨hb'.shows, hb.beside.trans hw hb'.beside, hb'.policy.trans hb.policy,
    hb'.undefinedByte.trans hb.undefinedByte⟩

theorem Open.looked_became (hw : Open w fd h d) :
    Became w (Stdio.looked w) fd (cursor w.kernel d) := by
  refine ⟨⟨h, d, hw.looked, ?_⟩, beside_looked fd w, ?_, looked_undefinedByte w⟩
  · rw [looked_kernel]
  · rw [looked_kernel]

/-- The same after the lookup of the handle. -/
theorem Open.turned_looked {β : Type} {f : Kernel → Int32 → Kernel × β} {k : Kernel} {b : β}
    (hw : Open w fd h d) (hf : f w.kernel h = (k, b)) (hk : Turned w.kernel k h d c) :
    ∃ w', (File.apply fd f).run (Stdio.looked w) = .ok b w' ∧ w'.mem = w.mem ∧
      Became w w' fd c := by
  rw [← looked_kernel w] at hf hk
  obtain ⟨w', hrun, hmem, hb⟩ := hw.looked.turned hf hk
  exact ⟨w', hrun, hmem.trans (looked_mem w), hw.looked_became.trans hw hb⟩

/-- Streams do not depend on memory. -/
theorem Became.memory {w' : World} (h : Became w w' fd c) (m : Mem) :
    Became w { w' with mem := m } fd c := by
  obtain ⟨⟨handle, d, hopen, hc⟩, ⟨hmoved, hfiles, hothers⟩, hpolicy, hbyte⟩ := h
  refine ⟨⟨handle, d, hopen.memory m, hc⟩, ⟨fun h₁ d₁ hopen₁ => ?_, hfiles, ?_⟩, hpolicy, hbyte⟩
  · obtain ⟨offset, hnew⟩ := hmoved h₁ d₁ hopen₁
    exact ⟨offset, hnew.memory m⟩
  · exact fun fd₁ h₁ d₁ hopen₁ hne => (hothers fd₁ h₁ d₁ hopen₁ hne).memory m

end Handles

inductive Access where
  | fgetc
  | fputc (ch : Int32)
  | fputs (str : Nat)
  | fread (buffer size count : Nat)
  | fwrite (buffer size count : Nat)
  | fseek (offset : Int64) (origin : Int32)
  | rewind
  | ftell
  deriving DecidableEq, Repr

/-- Perform an access for its result and the bytes it puts into memory. -/
def Access.run (fd : Stream) : Access → Run World (Int × List UInt8)
  | .fgetc => (·.toInt, []) <$> Stdio.fgetc (some fd)
  | .fputc ch => (·.toInt, []) <$> Stdio.fputc ch (some fd)
  | .fputs str => (·.toInt, []) <$> Stdio.fputs (some str) (some fd)
  | .fread buffer size count => do
    let n ← Stdio.fread buffer size count (some fd)
    return (n, ← onMem (Slice.slice buffer n))
  | .fwrite buffer size count => (Int.ofNat ·, []) <$> Stdio.fwrite buffer size count (some fd)
  | .fseek offset origin => (·.toInt, []) <$> Stdio.fseek (some fd) offset origin
  | .rewind => (fun _ => (0, [])) <$> Stdio.rewind (some fd)
  | .ftell => (·.toInt, []) <$> Stdio.ftell (some fd)

/-- The request that an access makes. It takes the bytes it writes from where memory is kept and
puts the bytes it reads where it is not. -/
inductive Access.Asks (m : Mem) (kept : Nat → Prop) : Access → Request → Prop where
  | fgetc : Asks m kept .fgetc (.read 1)
  | fputc {ch : Int32} : 0 ≤ ch.toInt ∧ ch.toInt < 256 → Asks m kept (.fputc ch) (.write [byte ch])
  | fputs {str : Nat} {s : List UInt8} : StringAt m str s →
      (∀ i, i < s.length + 1 → kept (str + i)) → Asks m kept (.fputs str) (.write (s ++ [10]))
  | fread {buffer size count : Nat} : Mapped m buffer (size * count) →
      (∀ i, i < size * count → ¬ kept (buffer + i)) →
      Asks m kept (.fread buffer size count) (.read (size * count))
  | fwrite {buffer size count : Nat} {bytes : List UInt8} : Holds m buffer bytes →
      bytes.length = size * count → (∀ i, i < bytes.length → kept (buffer + i)) →
      Asks m kept (.fwrite buffer size count) (.write bytes)
  | set {offset : Int64} : 0 ≤ offset.toInt →
      Asks m kept (.fseek offset 0) (.seek offset.toInt.toNat)
  | cur (offset : Int64) : Asks m kept (.fseek offset 1) (.skip offset.toInt)
  | rewind : Asks m kept .rewind (.seek 0)
  | ftell : Asks m kept .ftell .tell

/-- What an access returns for a reply. At the end of the file fgetc returns the undefined byte. -/
def Access.answer (undefinedByte : UInt8) : Access → Reply → Int × List UInt8
  | .fgetc, .got bytes => ((bytes.headD undefinedByte).toNat, [])
  | .fread _ _ _, .got bytes => (bytes.length, bytes)
  | .fwrite _ size count, .done => (size * count, [])
  | .fread _ _ _, _ | .fwrite _ _ _, _ => (0, [])
  | .fputc _, .done | .fputs _, .done | .fseek _ _, .done | .rewind, .done => (0, [])
  | .ftell, .told p => (p, [])
  | _, _ => (-1, [])

/-- What is kept of `m` is in `m'`, and the same addresses are mapped. -/
structure Retains (kept : Nat → Prop) (m m' : Mem) : Prop where
  same : ∀ p, kept p → m'.cell p = m.cell p
  mapped : ∀ p, (m'.cell p).isSome = (m.cell p).isSome

section Accesses

variable {w : World} {fd : Stream} {h : Int32} {d : Description} {kept : Nat → Prop} {m m' : Mem}

theorem Retains.refl (kept : Nat → Prop) (m : Mem) : Retains kept m m :=
  ⟨fun _ _ => rfl, fun _ => rfl⟩

theorem Retains.trans {m'' : Mem} (h : Retains kept m m') (h' : Retains kept m' m'') :
    Retains kept m m'' :=
  ⟨fun p hp => (h'.same p hp).trans (h.same p hp), fun p => (h'.mapped p).trans (h.mapped p)⟩

theorem Retains.mono {kept' : Nat → Prop} (h : Retains kept m m') (hle : ∀ p, kept' p → kept p) :
    Retains kept' m m' :=
  ⟨fun p hp => h.same p (hle p hp), h.mapped⟩

/-- What is kept does not depend on what is written elsewhere. -/
theorem Retains.write {buffer n : Nat} {bytes : List UInt8} (hlen : bytes.length ≤ n)
    (hout : ∀ i, i < n → ¬ kept (buffer + i)) (m : Mem) :
    Retains kept m (write m buffer bytes) := by
  refine ⟨fun p hp => write_outside m buffer bytes p ?_, write_mapped m buffer bytes⟩
  by_contra hin
  refine hout (p - buffer) (by omega) ?_
  rwa [Nat.add_sub_cancel' (by omega)]

/-- A file replies to a read with no more bytes than it was asked for. -/
theorem replied_length (n : Nat) (c : Cursor) :
    (Reply.read (serve (.read n) c).1).1.length ≤ n := by
  by_cases hr : c.readable = true
  · rw [serve_read hr]
    exact List.length_take_le n _
  · rw [serve_read_refused hr]
    exact Nat.zero_le n

theorem replied_count (n : Nat) (c : Cursor) :
    (if (Reply.read (serve (.read n) c).1).2 then (Reply.read (serve (.read n) c).1).1.length
      else 0) = (Reply.read (serve (.read n) c).1).1.length := by
  by_cases hr : c.readable = true
  · rw [serve_read hr]
    rfl
  · rw [serve_read_refused hr]
    rfl

theorem fread_answer (b : UInt8) (buffer size count n : Nat) (c : Cursor) :
    Access.answer b (.fread buffer size count) (serve (.read n) c).1 =
      (((Reply.read (serve (.read n) c).1).1.length : Int),
        (Reply.read (serve (.read n) c).1).1) := by
  by_cases hr : c.readable = true
  · rw [serve_read hr]
    rfl
  · rw [serve_read_refused hr]
    rfl

/-- An access has returned what the file behind the stream replies to its request. -/
def Performs (a : Access) (kept : Nat → Prop) (q : Request) (w : World) (fd : Stream) (c : Cursor) :
    Prop :=
  ∃ w', (a.run fd).run w = .ok (a.answer w.undefinedByte (serve q c).1) w' ∧
    Became w w' fd (serve q c).2 ∧ Retains kept w.mem w'.mem

theorem fgetc_performs (hw : Open w fd h d) (hk : Regular w.kernel.policy) :
    Performs .fgetc kept (.read 1) w fd (cursor w.kernel d) := by
  obtain ⟨k, hread, hturned⟩ := read_turned hw.described hk 1
  obtain ⟨w', hrun, hmem, hbecame⟩ := hw.turned_looked (f := (·.read · 1)) hread hturned
  refine ⟨w', ?_, hbecame, by rw [hmem]; exact .refl kept _⟩
  have hcall : (fgetc (some fd)).run w = (do
      let r := Reply.read (serve (.read 1) (cursor w.kernel d)).1
      if r.2 then return widen (r.1.headD (← get).undefinedByte) else return EOF :
        Run World Int32).run w' := by
    rw [fgetc, bind_ok (lookup_some fd w), File.read, bind_ok hrun]
  by_cases hr : (cursor w.kernel d).readable = true
  · rw [serve_read hr] at hcall ⊢
    refine (map_ok (hcall.trans rfl) _).trans ?_
    rw [hbecame.undefinedByte, widen_toInt]
    rfl
  · rw [serve_read_refused hr] at hcall ⊢
    exact (map_ok (hcall.trans rfl) _).trans rfl

theorem fputc_performs (hw : Open w fd h d) (hk : Regular w.kernel.policy) {ch : Int32}
    (hch : 0 ≤ ch.toInt ∧ ch.toInt < 256) :
    Performs (.fputc ch) kept (.write [byte ch]) w fd (cursor w.kernel d) := by
  have hbyte : UInt8.ofNat ch.toInt.toNat = byte ch := by
    rw [byte, Int.emod_eq_of_lt hch.1 hch.2]
  obtain ⟨k, hwrite, hturned⟩ := write_turned hw.described hk [byte ch]
  obtain ⟨w', hrun, hmem, hbecame⟩ := hw.turned_looked (f := (·.write · [byte ch])) hwrite hturned
  refine ⟨w', ?_, hbecame, by rw [hmem]; exact .refl kept _⟩
  have hcall : (fputc ch (some fd)).run w = (do
      if Reply.success (serve (.write [byte ch]) (cursor w.kernel d)).1 then return 0
      else return EOF : Run World Int32).run w' := by
    rw [fputc, bind_ok (lookup_some fd w), bind_ok (castU8_run _ hch), hbyte, File.write,
      bind_ok hrun]
  by_cases hd : (cursor w.kernel d).writable = true
  · rw [serve_write hd] at hcall ⊢
    exact (map_ok (hcall.trans rfl) _).trans rfl
  · rw [serve_write_refused hd] at hcall ⊢
    exact (map_ok (hcall.trans rfl) _).trans rfl

theorem fwrite_performs (hw : Open w fd h d) (hk : Regular w.kernel.policy)
    {buffer size count : Nat} {bytes : List UInt8} (hholds : Holds w.mem buffer bytes)
    (hlen : bytes.length = size * count) :
    Performs (.fwrite buffer size count) kept (.write bytes) w fd (cursor w.kernel d) := by
  have hmul : count * size = bytes.length := by rw [hlen, Nat.mul_comm]
  have hfit := hholds.mapped.length_lt (by decide)
  have hslice : (onMem (Slice.slice buffer bytes.length)).run (looked w) = .ok bytes (looked w) := by
    apply onMem_same
    rw [looked_mem, Slice.slice_run hholds]
  obtain ⟨k, hwrite, hturned⟩ := write_turned hw.described hk bytes
  obtain ⟨w', hrun, hmem, hbecame⟩ := hw.turned_looked (f := (·.write · bytes)) hwrite hturned
  refine ⟨w', ?_, hbecame, by rw [hmem]; exact .refl kept _⟩
  have hcall : (fwrite buffer size count (some fd)).run w = (do
      if Reply.success (serve (.write bytes) (cursor w.kernel d)).1 then return bytes.length
      else return 0 : Run World Nat).run w' := by
    rw [fwrite, fwriteFrom, bind_ok (lookup_some fd w), bind_ok (mul_run _ (hmul ▸ hfit)), hmul,
      bind_ok hslice, File.write, bind_ok hrun]
  by_cases hd : (cursor w.kernel d).writable = true
  · rw [serve_write hd] at hcall ⊢
    refine (map_ok (hcall.trans rfl) _).trans ?_
    rw [hlen]
    rfl
  · rw [serve_write_refused hd] at hcall ⊢
    exact (map_ok (hcall.trans rfl) _).trans rfl

/-- fputs writes the string and the newline one after the other, as if it wrote both at once. -/
theorem fputs_performs (hw : Open w fd h d) (hk : Regular w.kernel.policy) {str : Nat}
    {s : List UInt8} (hs : StringAt w.mem str s) :
    Performs (.fputs str) kept (.write (s ++ [10])) w fd (cursor w.kernel d) := by
  have hslice : (onMem (Slice.toSliceConst str)).run (looked w) = .ok s (looked w) := by
    apply onMem_same
    rw [looked_mem, Slice.toSliceConst_run hs]
  obtain ⟨k, hwrite, hturned⟩ := write_turned hw.described hk s
  obtain ⟨w₁, hrun, hmem, hbecame⟩ := hw.turned_looked (f := (·.write · s)) hwrite hturned
  obtain ⟨h₁, d₁, hopen₁, hcursor₁⟩ := hbecame.shows
  rw [← hbecame.policy] at hk
  obtain ⟨k₁, hwrite₁, hturned₁⟩ := write_turned hopen₁.described hk [10]
  obtain ⟨w₂, hrun₁, hmem₁, hbecame₁⟩ := hopen₁.turned (f := (·.write · [10])) hwrite₁ hturned₁
  rw [hcursor₁] at hrun₁ hbecame₁
  have hboth := hbecame.trans hw hbecame₁
  rw [serve_write_append] at hboth
  by_cases hd : (cursor w.kernel d).writable = true
  · refine ⟨w₂, ?_, hboth, by rw [hmem₁, hmem]; exact .refl kept _⟩
    rw [serve_write ((serve_writable (.write s) _).trans hd)] at hrun₁
    rw [serve_write hd] at hrun ⊢
    have hcall : (fputs (some str) (some fd)).run w = .ok 0 w₂ := by
      rw [fputs, bind_ok (lookup_some fd w), bind_ok (unwrap_run str _), bind_ok hslice,
        File.write, bind_ok hrun]
      exact bind_ok hrun₁ _
    exact (map_ok hcall _).trans rfl
  · refine ⟨w₁, ?_, ?_, by rw [hmem]; exact .refl kept _⟩
    · rw [serve_write_refused hd] at hrun ⊢
      have hcall : (fputs (some str) (some fd)).run w = .ok (-1) w₁ := by
        rw [fputs, bind_ok (lookup_some fd w), bind_ok (unwrap_run str _), bind_ok hslice,
          File.write, bind_ok hrun]
        rfl
      exact (map_ok hcall _).trans rfl
    · rw [serve_write_refused hd] at hbecame ⊢
      exact hbecame

/-- fread puts the bytes that the file gives into the buffer and counts them. -/
theorem fread_stores (hw : Open w fd h d) (hk : Regular w.kernel.policy)
    {buffer size count : Nat} (hmapped : Mapped w.mem buffer (size * count)) {bytes : List UInt8}
    (hbytes : (Reply.read (serve (.read (size * count)) (cursor w.kernel d)).1).1 = bytes) :
    ∃ w', (fread buffer size count (some fd)).run w = .ok bytes.length w' ∧
      w'.mem = write w.mem buffer bytes ∧
      Became w w' fd (serve (.read (size * count)) (cursor w.kernel d)).2 := by
  have hmul : count * size = size * count := Nat.mul_comm count size
  have hfit := hmapped.length_lt (by decide)
  have hlen := hbytes ▸ replied_length (size * count) (cursor w.kernel d)
  have hcount := replied_count (size * count) (cursor w.kernel d)
  obtain ⟨k, hread, hturned⟩ := read_turned hw.described hk (size * count)
  obtain ⟨w', hrun, hmem, hbecame⟩ :=
    hw.turned_looked (f := (·.read · (size * count))) hread hturned
  generalize Reply.read (serve (.read (size * count)) (cursor w.kernel d)).1 = r at *
  obtain ⟨got, success⟩ := r
  obtain rfl : got = bytes := hbytes
  have hfill : (onMem (Slice.fill buffer got)).run w' =
      .ok () { w' with mem := write w.mem buffer got } := by
    rw [run_onMem, hmem, Slice.fill_run (hmapped.part (Nat.le_refl _) (by omega))]
  refine ⟨{ w' with mem := write w.mem buffer got }, ?_, rfl, hbecame.memory _⟩
  rw [fread, bind_ok (lookup_some fd w), bind_ok (mul_run _ (hmul ▸ hfit)), hmul, File.read,
    bind_ok hrun, ← hcount]
  exact (bind_ok hfill _).trans rfl

theorem fread_performs (hw : Open w fd h d) (hk : Regular w.kernel.policy)
    {buffer size count : Nat} (hmapped : Mapped w.mem buffer (size * count))
    (hout : ∀ i, i < size * count → ¬ kept (buffer + i)) :
    Performs (.fread buffer size count) kept (.read (size * count)) w fd (cursor w.kernel d) := by
  obtain ⟨w', hrun, hmem, hbecame⟩ := fread_stores hw hk hmapped rfl
  have hlen := replied_length (size * count) (cursor w.kernel d)
  refine ⟨w', ?_, hbecame, by rw [hmem]; exact .write hlen hout _⟩
  rw [fread_answer, Access.run, bind_ok hrun]
  generalize (Reply.read (serve (.read (size * count)) (cursor w.kernel d)).1).1 = bytes at *
  have hback : (onMem (Slice.slice buffer bytes.length)).run w' = .ok bytes w' := by
    apply onMem_same
    rw [hmem]
    exact Slice.slice_run (holds_write _ _ _ (hmapped.part (Nat.le_refl _) (by omega)))
  exact (bind_ok hback _).trans rfl

theorem seek_set_performs (hw : Open w fd h d) (hk : Regular w.kernel.policy) {offset : Int64}
    (hoffset : 0 ≤ offset.toInt) :
    Performs (.fseek offset 0) kept (.seek offset.toInt.toNat) w fd (cursor w.kernel d) := by
  have hp : offset.toInt.toNat < RandomAccess.limit := by
    have hlt : offset.toInt < 0x8000000000000000 := offset.toInt_lt
    rw [RandomAccess.limit]
    omega
  obtain ⟨k, hseek, hturned⟩ := seekTo_turned hw.described hk offset.toInt.toNat
  obtain ⟨w', hrun, hmem, hbecame⟩ :=
    hw.turned_looked (f := (·.seekTo · offset.toInt.toNat)) hseek hturned
  refine ⟨w', ?_, hbecame, by rw [hmem]; exact .refl kept _⟩
  rw [serve_seek hp] at hrun ⊢
  have hcall : (fseek (some fd) offset 0).run w = .ok 0 w' := by
    rw [fseek, bind_ok (lookup_some fd w), if_pos rfl, bind_ok (castUsize_run _ hoffset),
      File.seekTo, bind_ok hrun]
    rfl
  exact (map_ok hcall _).trans rfl

theorem seek_cur_performs (hw : Open w fd h d) (hk : Regular w.kernel.policy) (offset : Int64) :
    Performs (.fseek offset 1) kept (.skip offset.toInt) w fd (cursor w.kernel d) := by
  obtain ⟨k, hseek, hturned⟩ := seekForward_turned hw.described hk offset.toInt
  obtain ⟨w', hrun, hmem, hbecame⟩ :=
    hw.turned_looked (f := (·.seekForward · offset.toInt)) hseek hturned
  refine ⟨w', ?_, hbecame, by rw [hmem]; exact .refl kept _⟩
  have hcall : (fseek (some fd) offset 1).run w = (do
      if Reply.success (serve (.skip offset.toInt) (cursor w.kernel d)).1 then return 0
      else return -1 : Run World Int32).run w' := by
    rw [fseek, bind_ok (lookup_some fd w), if_neg (by decide), if_pos rfl, File.seekForward,
      bind_ok hrun]
  by_cases hp : 0 ≤ ((cursor w.kernel d).offset : Int) + offset.toInt ∧
      ((cursor w.kernel d).offset : Int) + offset.toInt < RandomAccess.limit
  · rw [serve_skip hp] at hcall ⊢
    exact (map_ok (hcall.trans rfl) _).trans rfl
  · rw [serve_skip_refused hp] at hcall ⊢
    exact (map_ok (hcall.trans rfl) _).trans rfl

theorem rewind_performs (hw : Open w fd h d) (hk : Regular w.kernel.policy) :
    Performs .rewind kept (.seek 0) w fd (cursor w.kernel d) := by
  have hp : 0 < RandomAccess.limit := by decide
  obtain ⟨k, hseek, hturned⟩ := seekTo_turned hw.described hk 0
  obtain ⟨w', hrun, hmem, hbecame⟩ := hw.turned_looked (f := (·.seekTo · 0)) hseek hturned
  refine ⟨w', ?_, hbecame, by rw [hmem]; exact .refl kept _⟩
  rw [serve_seek hp] at hrun ⊢
  have hcall : (rewind (some fd)).run w = .ok () w' := by
    rw [rewind, bind_ok (lookup_some fd w), File.seekTo, bind_ok hrun]
    rfl
  exact (map_ok hcall _).trans rfl

theorem ftell_performs (hw : Open w fd h d) (hk : Regular w.kernel.policy)
    (hp : d.offset < RandomAccess.limit) :
    Performs .ftell kept .tell w fd (cursor w.kernel d) := by
  have hpos : w.kernel.getPos h = (w.kernel.tick, some d.offset) := by
    simp [Kernel.getPos, hw.described, hk.succeeds]
  obtain ⟨w', hrun, hmem, hbecame⟩ :=
    hw.turned_looked (f := Kernel.getPos) hpos (turned_tick hw.described)
  refine ⟨w', ?_, hbecame, by rw [hmem]; exact .refl kept _⟩
  have hcall : (ftell (some fd)).run w = .ok (Int64.ofNat d.offset) w' := by
    rw [ftell, bind_ok (lookup_some fd w), File.getPos, bind_ok hrun]
    have hfit : d.offset < 0x8000000000000000 := hp
    dsimp only
    rw [castLong, if_pos hfit]
    rfl
  have hvalue : (Int64.ofNat d.offset).toInt = d.offset := Int64.toInt_ofNat_of_lt hp
  refine (map_ok hcall _).trans ?_
  rw [hvalue]
  rfl

/-- Every access performs its request. -/
theorem access_performs (hw : Open w fd h d) (hk : Regular w.kernel.policy) {a : Access}
    {q : Request} (hasks : a.Asks w.mem kept q) (htell : Tellable q (cursor w.kernel d)) :
    Performs a kept q w fd (cursor w.kernel d) := by
  cases hasks with
  | fgetc => exact fgetc_performs hw hk
  | fputc hch => exact fputc_performs hw hk hch
  | fputs hs _ => exact fputs_performs hw hk hs
  | fread hmapped hout => exact fread_performs hw hk hmapped hout
  | fwrite hholds hlen _ => exact fwrite_performs hw hk hholds hlen
  | set hoffset => exact seek_set_performs hw hk hoffset
  | cur offset => exact seek_cur_performs hw hk offset
  | rewind => exact rewind_performs hw hk
  | ftell => exact ftell_performs hw hk htell

end Accesses

/-- The request that an access makes in a memory. -/
def Access.request (m : Mem) : Access → Request
  | .fgetc => .read 1
  | .fputc ch => .write [byte ch]
  | .fputs str => .write ((value? ((Slice.toSliceConst str).run m)).getD [] ++ [10])
  | .fread _ size count => .read (size * count)
  | .fwrite buffer size count =>
    .write ((value? ((Slice.slice buffer (size * count)).run m)).getD [])
  | .fseek offset origin => if origin = 0 then .seek offset.toInt.toNat else .skip offset.toInt
  | .rewind => .seek 0
  | .ftell => .tell

/-- The arguments of an access are in order: what it writes is kept in memory, what it reads goes
elsewhere, and a seek is from the start or from the cursor. -/
def Access.InOrder (m : Mem) (kept : Nat → Prop) : Access → Prop
  | .fputc ch => 0 ≤ ch.toInt ∧ ch.toInt < 256
  | .fputs str => ∃ s, StringAt m str s ∧ ∀ i, i < s.length + 1 → kept (str + i)
  | .fread buffer size count =>
    Mapped m buffer (size * count) ∧ ∀ i, i < size * count → ¬ kept (buffer + i)
  | .fwrite buffer size count =>
    Mapped m buffer (size * count) ∧ ∀ i, i < size * count → kept (buffer + i)
  | .fseek offset origin => (origin = 0 ∧ 0 ≤ offset.toInt) ∨ origin = 1
  | .fgetc | .rewind | .ftell => True

end Stdio
