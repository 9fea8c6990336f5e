import Mathlib.Logic.Function.Basic

/-!
# std.os.File over a POSIX kernel

What the library relies on of the operating system: paths lead to files, files
hold bytes, and an open descriptor is a file with an offset and its access mode.
`openWrite` opens write-only, creating the file and truncating it. The choices
the kernel and the standard library make are collected in a policy.
-/
namespace OsFile

open Function

/-- An open file. -/
structure Description where
  inode : Nat
  offset : Nat
  readable : Bool
  writable : Bool
  deriving DecidableEq, Repr

abbrev Table := Int32 → Option Description

/-- What is decided outside the program: the descriptor the next open gets, whether the `n`-th
operation fails, how many of the bytes on offer a transfer moves before it stops or fails, what a
record holds after it was closed, how much scratch memory the standard library takes for a path, and
how std.fmt prints a conversion. -/
structure Policy where
  descriptor : Table → Option Int32
  fresh : ∀ t fd, descriptor t = some fd → t fd = none
  fails : Nat → Bool
  amount : Nat → Nat → Nat
  amount_le : ∀ n k, amount n k ≤ k
  amount_pos : ∀ n k, fails n = false → 0 < k → 0 < amount n k
  closed : Int32 → Option Int32
  scratch : List UInt8 → Nat
  printed : UInt8 → List UInt8

/-- The policy of a system in which nothing fails: the lowest free descriptor, whole transfers, and
records that keep their handle. -/
def Policy.lowest : Policy where
  descriptor t := ((List.range 1024).map Int32.ofNat).find? fun fd => (t fd).isNone
  fresh t fd h := by simpa using List.find?_some h
  fails _ := false
  amount _ k := k
  amount_le _ k := Nat.le_refl k
  amount_pos _ _ _ h := h
  closed := some
  scratch path := path.length + 1
  printed ch := [ch]

/-- The scratch memory for several paths at once. -/
def Policy.scratchFor (policy : Policy) : List (List UInt8) → Nat
  | [] => 0
  | path :: paths => policy.scratch path + policy.scratchFor paths

/-- Files from `unused` on have no name and are not open. -/
structure Kernel where
  policy : Policy
  paths : List UInt8 → Option Nat
  contents : Nat → List UInt8
  table : Table
  unused : Nat
  clock : Nat
  named : ∀ path i, paths path = some i → i < unused
  opened : ∀ fd d, table fd = some d → d.inode < unused

/-- Replace the bytes at an offset, filling a gap before it with NUL bytes. -/
def writeAt (content : List UInt8) (offset : Nat) (bytes : List UInt8) : List UInt8 :=
  if bytes = [] then content
  else content.take offset ++ List.replicate (offset - content.length) 0 ++ bytes ++
    content.drop (offset + bytes.length)

/-- The three standard descriptors on the files 0, 1 and 2, the first of them readable. -/
def inherited : Table := fun fd =>
  if fd = 0 then some ⟨0, 0, true, false⟩
  else if fd = 1 then some ⟨1, 0, false, true⟩
  else if fd = 2 then some ⟨2, 0, false, true⟩
  else none

/-- A process that has just been started, with the given input. -/
def Kernel.started (policy : Policy) (input : List UInt8) : Kernel where
  policy := policy
  paths _ := none
  contents i := if i = 0 then input else []
  table := inherited
  unused := 3
  clock := 0
  named _ _ h := nomatch h
  opened fd d h := by
    unfold inherited at h
    grind

namespace Kernel

variable (k : Kernel)

/-- The next operation decides for itself. -/
def tick : Kernel := { k with clock := k.clock + 1 }

/-- Replace one entry of the descriptor table. -/
def describe (fd : Int32) (o : Option Description) (h : ∀ d, o = some d → d.inode < k.unused) :
    Kernel :=
  { k with
    table := update k.table fd o
    opened := by
      intro fd' d hd
      by_cases hfd : fd' = fd
      · subst hfd
        rw [update_self] at hd
        exact h d hd
      · rw [update_of_ne hfd] at hd
        exact k.opened fd' d hd }

/-- Replace what one path leads to. -/
def name (path : List UInt8) (o : Option Nat) (h : ∀ i, o = some i → i < k.unused) : Kernel :=
  { k with
    paths := update k.paths path o
    named := by
      intro p i hi
      by_cases hp : p = path
      · subst hp
        rw [update_self] at hi
        exact h i hi
      · rw [update_of_ne hp] at hi
        exact k.named p i hi }

/-- Count the file `i` among the used ones. -/
def reserve (i : Nat) : Kernel :=
  { k with
    unused := max k.unused (i + 1)
    named := fun path j h => Nat.lt_of_lt_of_le (k.named path j h) (Nat.le_max_left _ _)
    opened := fun fd d h => Nat.lt_of_lt_of_le (k.opened fd d h) (Nat.le_max_left _ _) }

theorem lt_reserve (i : Nat) : ∀ j, some i = some j → j < (k.reserve i).unused := by
  intro j h
  obtain rfl := Option.some.inj h
  exact Nat.lt_of_lt_of_le (Nat.lt_succ_self i) (Nat.le_max_right _ _)

/-- The file an open for writing leads to: the one the path names, or a new one. -/
def target (path : List UInt8) : Nat := (k.paths path).getD k.unused

/-- `fd` becomes a write-only descriptor of the emptied file. -/
def truncated (path : List UInt8) (fd : Int32) : Kernel :=
  let i := k.target path
  let k' := (k.reserve i).name path (some i) (k.lt_reserve i)
  { k' with contents := update k.contents i [] }.describe fd (some ⟨i, 0, false, true⟩) (by
    intro d hd
    obtain rfl := Option.some.inj hd
    exact k.lt_reserve i i rfl)

def openWrite (path : List UInt8) : Kernel × Option Int32 :=
  if k.policy.fails k.clock then (k.tick, none)
  else
    match k.policy.descriptor k.table with
    | none => (k.tick, none)
    | some fd => ((k.truncated path fd).tick, some fd)

def close (fd : Int32) : Kernel := k.describe fd none (fun _ h => nomatch h)

/-- Move the offset of an open descriptor. -/
def seek (fd : Int32) (offset : Nat) : Kernel :=
  match h : k.table fd with
  | none => k
  | some d => k.describe fd (some { d with offset := offset }) (by
      intro d' hd
      obtain rfl := Option.some.inj hd
      exact k.opened fd d h)

theorem seek_table {fd : Int32} {d : Description} (h : k.table fd = some d) (offset : Nat) :
    (k.seek fd offset).table = update k.table fd (some { d with offset := offset }) := by
  unfold seek
  split
  · simp_all
  · simp_all [describe]

@[simp] theorem seek_contents (fd : Int32) (offset : Nat) :
    (k.seek fd offset).contents = k.contents := by
  unfold seek
  split <;> rfl

@[simp] theorem seek_clock (fd : Int32) (offset : Nat) :
    (k.seek fd offset).clock = k.clock := by
  unfold seek
  split <;> rfl

@[simp] theorem seek_policy (fd : Int32) (offset : Nat) :
    (k.seek fd offset).policy = k.policy := by
  unfold seek
  split <;> rfl

/-- The bytes delivered, and whether the read succeeded. A read delivers nothing at the end of
the file; one that fails may have moved some bytes all the same. -/
def read (fd : Int32) (n : Nat) : Kernel × List UInt8 × Bool :=
  match k.table fd with
  | none => (k.tick, [], false)
  | some d =>
    if d.readable then
      let rest := ((k.contents d.inode).drop d.offset).take n
      let got := rest.take (k.policy.amount k.clock rest.length)
      ((k.seek fd (d.offset + got.length)).tick, got, !k.policy.fails k.clock)
    else (k.tick, [], false)

/-- Whether all the bytes were written. A write that fails may have written some of them. -/
def write (fd : Int32) (bytes : List UInt8) : Kernel × Bool :=
  match k.table fd with
  | none => (k.tick, false)
  | some d =>
    if d.writable then
      let put := if k.policy.fails k.clock then
        bytes.take (k.policy.amount k.clock bytes.length) else bytes
      let k' := { k with
        contents := update k.contents d.inode (writeAt (k.contents d.inode) d.offset put) }
      ((k'.seek fd (d.offset + put.length)).tick, !k.policy.fails k.clock)
    else (k.tick, false)

/-- lseek with SEEK_SET. An offset is a non-negative `isize`. -/
def seekTo (fd : Int32) (offset : Nat) : Kernel × Bool :=
  if (k.table fd).isSome ∧ offset < 0x8000000000000000 ∧ ¬ k.policy.fails k.clock then
    ((k.seek fd offset).tick, true)
  else (k.tick, false)

/-- lseek with SEEK_CUR. -/
def seekForward (fd : Int32) (amount : Int) : Kernel × Bool :=
  match k.table fd with
  | none => (k.tick, false)
  | some d =>
    if 0 ≤ d.offset + amount ∧ d.offset + amount < 0x8000000000000000 ∧
        ¬ k.policy.fails k.clock then
      ((k.seek fd (d.offset + amount).toNat).tick, true)
    else (k.tick, false)

def getPos (fd : Int32) : Kernel × Option Nat :=
  match k.table fd with
  | none => (k.tick, none)
  | some d => (k.tick, if k.policy.fails k.clock then none else some d.offset)

def deleteFile (path : List UInt8) : Kernel × Bool :=
  if (k.paths path).isSome ∧ ¬ k.policy.fails k.clock then
    ((k.name path none (fun _ h => nomatch h)).tick, true)
  else (k.tick, false)

def rename (old new : List UInt8) : Kernel × Bool :=
  match h : k.paths old with
  | none => (k.tick, false)
  | some i =>
    if k.policy.fails k.clock then (k.tick, false)
    else if old = new then (k.tick, true)
    else
      let k' := k.name new (some i) (fun _ hj => Option.some.inj hj ▸ k.named old i h)
      ((k'.name old none (fun _ h => nomatch h)).tick, true)

section Transfers

variable {k} {fd : Int32} {d : Description}

/-- A read of one byte delivers the next one, and none at the end of the file. -/
theorem read_one (h : k.table fd = some d) (hr : d.readable = true)
    (hf : k.policy.fails k.clock = false) :
    k.read fd 1 =
      ((k.seek fd (d.offset + (((k.contents d.inode).drop d.offset).take 1).length)).tick,
      ((k.contents d.inode).drop d.offset).take 1, true) := by
  have hall : (((k.contents d.inode).drop d.offset).take 1).take (k.policy.amount k.clock
      (((k.contents d.inode).drop d.offset).take 1).length) =
      ((k.contents d.inode).drop d.offset).take 1 := by
    apply List.take_of_length_le
    cases hrest : (k.contents d.inode).drop d.offset with
    | nil => simp
    | cons b rest =>
      have hpos := k.policy.amount_pos k.clock 1 hf (by omega)
      simpa using Nat.succ_le_of_lt hpos
  simp only [read, h, hr, hf, hall, if_true, Bool.not_false]

theorem write_all (h : k.table fd = some d) (hw : d.writable = true)
    (hf : k.policy.fails k.clock = false) (bytes : List UInt8) :
    k.write fd bytes =
      (({ k with
          contents := update k.contents d.inode
            (writeAt (k.contents d.inode) d.offset bytes) }.seek fd
          (d.offset + bytes.length)).tick, true) := by
  simp [write, h, hw, hf]

end Transfers

end Kernel

/-- Writing on from where a write has ended is writing both at once. -/
theorem writeAt_append (content : List UInt8) (offset : Nat) (a b : List UInt8) :
    writeAt (writeAt content offset a) (offset + a.length) b = writeAt content offset (a ++ b) := by
  by_cases ha : a = []
  · simp [writeAt, ha]
  · by_cases hb : b = []
    · simp [writeAt, hb]
    · have hab : a ++ b ≠ [] := by simp [ha]
      have hlen : (content.take offset ++ List.replicate (offset - content.length) 0).length =
          offset := by
        rw [List.length_append, List.length_take, List.length_replicate]
        omega
      simp only [writeAt, if_neg ha, if_neg hb, if_neg hab]
      generalize content.take offset ++ List.replicate (offset - content.length) 0 = p at hlen ⊢
      have hkeep : (p ++ a).length = offset + a.length := by rw [List.length_append, hlen]
      have hpad : offset + a.length - (p ++ a ++ content.drop (offset + a.length)).length = 0 := by
        rw [List.length_append, hkeep]
        omega
      rw [hpad, ← hkeep, List.take_left, List.drop_append, hkeep, List.length_append]
      simp [Nat.add_assoc]
      omega

end OsFile
