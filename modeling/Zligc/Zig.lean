import Zligc.Effect
import Zligc.CellMemory

/-!
# Zig in its safety-checked build

The Makefile compiles the library without a release mode, so integer overflow,
narrowing casts, null unwraps and `unreachable` are checked and end in the
panic handler. A `usize` is a natural number: its checked operations fault
before they could leave the 64-bit range. A `c_int` is an `Int32`. An access to
an unmapped byte is a fault as well, and so is a loop that outlives the 2^64
rounds its checked `usize` index allows.
-/
namespace Zig

open Effect CellMemory

inductive Fault where
  | segmentation | integerOverflow | integerCast | nullUnwrap | reachedUnreachable | exhausted
  | panic (message : String)
  deriving DecidableEq, Repr

abbrev Run (σ α : Type) := EStateM Fault σ α

/-- Bytes at 64-bit addresses. -/
abbrev Mem := Memory UInt8 0x10000000000000000

/-- A state with a memory in it. `reading p i` is what the state keeps of a read of `p[i]`. -/
class HasMem (σ : Type) where
  mem : σ → Mem
  withMem : σ → Mem → σ
  reading : Nat → Nat → σ → σ

instance : HasMem Mem where
  mem m := m
  withMem _ m := m
  reading _ _ m := m

variable {σ α β : Type}

/-- The value of `p[i]`. -/
def load [HasMem σ] (p i : Nat) : Run σ UInt8 := fun s =>
  match (HasMem.mem s).cell (p + i) with
  | some b => .ok b (HasMem.reading p i s)
  | none => .error .segmentation (HasMem.reading p i s)

/-- `p[i] = b`. -/
def store [HasMem σ] (p i : Nat) (b : UInt8) : Run σ Unit := fun s =>
  if ((HasMem.mem s).cell (p + i)).isSome then
    .ok () (HasMem.withMem s (write (HasMem.mem s) (p + i) [b]))
  else
    .error .segmentation s

/-- `a + b` on `usize`. -/
def add (a b : Nat) : Run σ Nat :=
  if a + b < 0x10000000000000000 then pure (a + b) else throw .integerOverflow

/-- `a * b` on `usize`. -/
def mul (a b : Nat) : Run σ Nat :=
  if a * b < 0x10000000000000000 then pure (a * b) else throw .integerOverflow

/-- `a - b` on `usize`. -/
def sub (a b : Nat) : Run σ Nat :=
  if b ≤ a then pure (a - b) else throw .integerOverflow

/-- `-n` on the signed type that ranges from `-limit` to `limit - 1`. -/
def negate (limit : Nat) (n : Int) : Run σ Int :=
  if -n < limit then pure (-n) else throw .integerOverflow

/-- `@divTrunc(x, y)` on that type. -/
def divTrunc (limit : Nat) (x y : Int) : Run σ Int :=
  if y = 0 then throw (.panic "division by zero")
  else if x.tdiv y < limit then pure (x.tdiv y)
  else throw .integerOverflow

/-- `@rem(x, y)`, which takes positive denominators only. -/
def rem (x y : Int) : Run σ Int :=
  if 0 < y then pure (x.tmod y)
  else throw (.panic "remainder division by zero or negative value")

/-- `@intCast(u8, ch)` of a `c_int`. -/
def castU8 (ch : Int32) : Run σ UInt8 :=
  if 0 ≤ ch.toInt ∧ ch.toInt < 256 then pure (UInt8.ofNat ch.toInt.toNat) else throw .integerCast

/-- `@intCast(c_uint, c)` of a `c_int`. -/
def castUint (c : Int32) : Run σ UInt32 :=
  if 0 ≤ c.toInt then pure c.toUInt32 else throw .integerCast

/-- The widening of a `u8` to a `c_int`. -/
def widen (b : UInt8) : Int32 := Int32.ofNat b.toNat

/-- `@intCast(usize, n)` of a signed integer. -/
def castUsize (n : Int) : Run σ Nat :=
  if 0 ≤ n then pure n.toNat else throw .integerCast

/-- `@intCast(c_long, n)` of a `usize`. -/
def castLong (n : Nat) : Run σ Int64 :=
  if n < 0x8000000000000000 then pure (Int64.ofNat n) else throw .integerCast

/-- `maybe.?` -/
def unwrap (maybe : Option α) : Run σ α :=
  match maybe with
  | some a => pure a
  | none => throw .nullUnwrap

/-- A C pointer as an optional one: address zero is null. -/
def optional (p : Nat) : Option Nat := if p = 0 then none else some p

/-- How a loop ended: by a `return` from inside it, or by running on to the code after it. -/
inductive Exit (ρ κ : Type) where
  | returned : ρ → Exit ρ κ
  | fell : κ → Exit ρ κ
  deriving DecidableEq, Repr

/-- A `while` loop, entered with `b`. -/
def while_ (b : β) (body : β → Run σ (Turn β α)) : Run σ α :=
  loop .exhausted body 0x10000000000000000 b

section Checks

variable {R : σ → σ → Prop} [IsPreorder σ R]

theorem add_moves (a b : Nat) : Moves R (add a b : Run σ Nat) := by
  unfold add
  split
  · exact moves_pure _
  · exact moves_throw _

theorem mul_moves (a b : Nat) : Moves R (mul a b : Run σ Nat) := by
  unfold mul
  split
  · exact moves_pure _
  · exact moves_throw _

theorem sub_moves (a b : Nat) : Moves R (sub a b : Run σ Nat) := by
  unfold sub
  split
  · exact moves_pure _
  · exact moves_throw _

theorem castU8_moves (ch : Int32) : Moves R (castU8 ch : Run σ UInt8) := by
  unfold castU8
  split
  · exact moves_pure _
  · exact moves_throw _

theorem castUsize_moves (n : Int) : Moves R (castUsize n : Run σ Nat) := by
  unfold castUsize
  split
  · exact moves_pure _
  · exact moves_throw _

theorem castLong_moves (n : Nat) : Moves R (castLong n : Run σ Int64) := by
  unfold castLong
  split
  · exact moves_pure _
  · exact moves_throw _

theorem unwrap_moves (maybe : Option α) : Moves R (unwrap maybe : Run σ α) := by
  cases maybe with
  | some a => exact moves_pure a
  | none => exact moves_throw _

end Checks

@[simp] theorem load_run {m : Mem} {p i : Nat} {b : UInt8} (h : m.cell (p + i) = some b) :
    (load p i).run m = .ok b m := by
  simp [load, EStateM.run, HasMem.mem, HasMem.reading, h]

@[simp] theorem store_run {m : Mem} {p i : Nat} (b : UInt8) (h : (m.cell (p + i)).isSome) :
    (store p i b).run m = .ok () (write m (p + i) [b]) := by
  simp [store, EStateM.run, HasMem.mem, HasMem.withMem, h]

theorem store_fault {m : Mem} {p i : Nat} (b : UInt8) (h : m.cell (p + i) = none) :
    (store p i b).run m = .error .segmentation m := by
  simp [store, EStateM.run, HasMem.mem, h]

@[simp] theorem add_run {a b : Nat} (s : σ) (h : a + b < 0x10000000000000000) :
    (add a b : Run σ Nat).run s = .ok (a + b) s := by
  simp [add, h]

theorem add_fault {a b : Nat} (s : σ) (h : ¬ a + b < 0x10000000000000000) :
    (add a b : Run σ Nat).run s = .error .integerOverflow s := by
  rw [add, if_neg h]
  rfl

@[simp] theorem mul_run {a b : Nat} (s : σ) (h : a * b < 0x10000000000000000) :
    (mul a b : Run σ Nat).run s = .ok (a * b) s := by
  simp [mul, h]

@[simp] theorem sub_run {a b : Nat} (s : σ) (h : b ≤ a) :
    (sub a b : Run σ Nat).run s = .ok (a - b) s := by
  simp [sub, h]

theorem negate_run {limit : Nat} {n : Int} (s : σ) (h : -n < limit) :
    (negate limit n : Run σ Int).run s = .ok (-n) s := by
  rw [negate, if_pos h]
  rfl

theorem negate_fault {limit : Nat} {n : Int} (s : σ) (h : ¬ -n < limit) :
    (negate limit n : Run σ Int).run s = .error .integerOverflow s := by
  rw [negate, if_neg h]
  rfl

theorem divTrunc_run {limit : Nat} {x y : Int} (s : σ) (hy : y ≠ 0) (h : x.tdiv y < limit) :
    (divTrunc limit x y : Run σ Int).run s = .ok (x.tdiv y) s := by
  rw [divTrunc, if_neg hy, if_pos h]
  rfl

theorem rem_run {x y : Int} (s : σ) (h : 0 < y) :
    (rem x y : Run σ Int).run s = .ok (x.tmod y) s := by
  rw [rem, if_pos h]
  rfl

theorem rem_fault {x y : Int} (s : σ) (h : ¬ 0 < y) : (rem x y : Run σ Int).run s =
    .error (.panic "remainder division by zero or negative value") s := by
  rw [rem, if_neg h]
  rfl

@[simp] theorem castU8_run {ch : Int32} (s : σ) (h : 0 ≤ ch.toInt ∧ ch.toInt < 256) :
    (castU8 ch : Run σ UInt8).run s = .ok (UInt8.ofNat ch.toInt.toNat) s := by
  simp [castU8, h]

theorem castU8_fault {ch : Int32} (s : σ) (h : ¬ (0 ≤ ch.toInt ∧ ch.toInt < 256)) :
    (castU8 ch : Run σ UInt8).run s = .error .integerCast s := by
  rw [castU8, if_neg h]
  rfl

@[simp] theorem castUint_run {c : Int32} (s : σ) (h : 0 ≤ c.toInt) :
    (castUint c : Run σ UInt32).run s = .ok c.toUInt32 s := by
  simp [castUint, h]

theorem castUint_fault {c : Int32} (s : σ) (h : ¬ 0 ≤ c.toInt) :
    (castUint c : Run σ UInt32).run s = .error .integerCast s := by
  rw [castUint, if_neg h]
  rfl

/-- The bit pattern of a `c_int` as a `c_uint`, and the value it stands for. -/
theorem toInt_eq (n : Int32) : n.toInt =
    if n.toUInt32.toNat < 0x80000000 then (n.toUInt32.toNat : Int)
    else n.toUInt32.toNat - 0x100000000 := by
  have hint : n.toInt = n.toBitVec.toInt := rfl
  have hnat : n.toUInt32.toNat = n.toBitVec.toNat := rfl
  rw [hint, hnat, BitVec.toInt_eq_toNat_cond]
  split <;> split <;> omega

theorem toUInt32_toNat {c : Int32} (h : 0 ≤ c.toInt) : (c.toUInt32.toNat : Int) = c.toInt := by
  have hlt := c.toUInt32.toNat_lt
  rw [toInt_eq] at h ⊢
  split <;> omega

theorem widen_toInt (b : UInt8) : (widen b).toInt = b.toNat := by
  have hlt := b.toNat_lt
  rw [widen, Int32.toInt_ofNat_of_lt (by omega)]

/-- Every character in the range of a byte is one. -/
theorem widen_cast {ch : Int32} (h : 0 ≤ ch.toInt ∧ ch.toInt < 256) :
    widen (UInt8.ofNat ch.toInt.toNat) = ch := by
  apply Int32.toInt_inj.mp
  rw [widen_toInt, UInt8.toNat_ofNat_of_lt' (by show _ < 256; omega)]
  omega

theorem widen_zero : widen 0 = 0 := rfl

theorem widen_inj {b c : UInt8} : widen b = widen c ↔ b = c := by
  constructor
  · intro h
    have hint := congrArg Int32.toInt h
    rw [widen_toInt, widen_toInt] at hint
    exact UInt8.toNat_inj.mp (Int.ofNat_inj.mp hint)
  · rintro rfl
    rfl

@[simp] theorem widen_eq_zero {b : UInt8} : widen b = 0 ↔ b = 0 := by
  rw [← widen_zero, widen_inj]

@[simp] theorem castU8_widen (b : UInt8) (s : σ) :
    (castU8 (widen b) : Run σ UInt8).run s = .ok b s := by
  have hlt := b.toNat_lt
  rw [castU8_run s (by rw [widen_toInt]; omega), widen_toInt]
  simp

@[simp] theorem unwrap_run (a : α) (s : σ) : (unwrap (some a) : Run σ α).run s = .ok a s := rfl

theorem optional_pos {p : Nat} (h : 0 < p) : optional p = some p := if_neg (Nat.ne_of_gt h)

theorem optional_eq {p q : Nat} (h : optional p = some q) : p = q := by
  unfold optional at h
  split at h
  · cases h
  · exact Option.some.inj h

@[simp] theorem castUsize_run {n : Int} (s : σ) (h : 0 ≤ n) :
    (castUsize n : Run σ Nat).run s = .ok n.toNat s := by
  simp [castUsize, h]

end Zig
