import Mathlib.Data.List.ReduceOption
import Mathlib.Logic.Function.Basic
import Zligc.Zig

/-!
# Program termination in stdlib.zig

Two tables of 32 optional handlers, and for each of them a function that registers
and one that terminates the process. The loops that register return at the first
slot that is taken, so in a process that starts with free slots no registration
succeeds; the loops that terminate do call the handlers from the last slot down.
-/
namespace Stdlib

open Effect Zig

/-- The address of a handler. -/
abbrev ExitFunc := Nat

abbrev Slots := Vector (Option ExitFunc) 32

inductive Table where
  | exit_funcs | quick_exit_funcs
  deriving DecidableEq, Repr

/-- A slice of words. -/
structure Words where
  ptr : Nat
  len : Nat
  deriving DecidableEq, Repr

/-- The globals that start-up and termination work on, and the handlers called so far. -/
structure Process where
  funcs : Table → Slots
  raw : Words
  posix_environ_raw : Words
  called : List ExitFunc

/-- A process before its first call. -/
def started (raw posix_environ_raw : Words) : Process where
  funcs _ := Vector.replicate 32 none
  raw := raw
  posix_environ_raw := posix_environ_raw
  called := []

/-- `f()`, for a handler that returns. -/
def call (f : ExitFunc) : Run Process Unit :=
  modify fun s => { s with called := s.called ++ [f] }

/-- The loop over the slots of a table. -/
def forSlots : List (Option ExitFunc) → Run Process Int32
  | [] => return 1
  | some _ :: _ => return 0
  | none :: slots => forSlots slots

def register (table : Table) : Run Process Int32 := do
  forSlots ((← get).funcs table).toList

def runHandlers (table : Table) : Run Process Unit :=
  while_ 0 fun ri => do
    if ri < 32 then
      let i ← sub (← sub 32 ri) 1
      match ((← get).funcs table)[i]? with
      | none => throw (.panic "index out of bounds")
      | some none => pure ()
      | some (some f) => call f
      return .next (← add ri 1)
    else
      return .done ()

/-- `@truncate(u8, @bitCast(c_uint, exit_code))` -/
def lowByte (exit_code : Int32) : UInt8 := exit_code.toUInt32.toUInt8

/-- `std.os.exit`. A function that does not return yields the status with which it terminates the
process. -/
def osExit (status : UInt8) : Run Process UInt8 := pure status

def terminate (table : Table) (exit_code : Int32) : Run Process UInt8 := do
  runHandlers table
  osExit (lowByte exit_code)

def atexit : Run Process Int32 := register .exit_funcs

def exit (exit_code : Int32) : Run Process UInt8 := terminate .exit_funcs exit_code

def at_quick_exit : Run Process Int32 := register .quick_exit_funcs

def quick_exit (exit_code : Int32) : Run Process UInt8 := terminate .quick_exit_funcs exit_code

/-- The status is the exit code modulo 256. -/
theorem lowByte_mod (n : Int32) : ((lowByte n).toNat : Int) = n.toInt % 256 := by
  rw [lowByte, UInt32.toNat_toUInt8, toInt_eq]
  split <;> omega

section Runs

variable (table : Table) (s : Process)

theorem forSlots_run (slots : List (Option ExitFunc)) :
    (forSlots slots).run s = .ok (if slots.any Option.isSome then 0 else 1) s := by
  induction slots with
  | nil => rfl
  | cons mf slots ih =>
    cases mf with
    | some f => simp [forSlots]
    | none => simpa [forSlots] using ih

/-- Registering returns 0 where something is registered already, and it registers nothing. -/
theorem register_run : (register table).run s =
    .ok (if (s.funcs table).toList.any Option.isSome then 0 else 1) s :=
  forSlots_run s _

/-- The handlers of a table, from the last slot down. -/
def handlers (slots : Slots) : List ExitFunc := slots.toList.reverse.reduceOption

theorem take_handlers (slots : Slots) {i : Nat} (hi : i < 32) :
    (slots.toList.reverse.take (i + 1)).reduceOption =
      (slots.toList.reverse.take i).reduceOption ++ (slots[32 - i - 1]).toList := by
  have hlen : i < slots.toList.reverse.length := by simpa using hi
  have hget : slots.toList.reverse[i] = slots[32 - i - 1] := by
    simp [List.getElem_reverse, Nat.sub_right_comm 32 i 1]
  rw [List.take_add_one, List.reduceOption_append, List.getElem?_eq_getElem hlen, hget,
    Option.toList_some, List.reduceOption_singleton]

/-- The loop calls what each slot holds, counting down. -/
theorem runHandlers_run : (runHandlers table).run s =
    .ok () { s with called := s.called ++ handlers (s.funcs table) } := by
  let upTo (i : Nat) : Process :=
    { s with called := s.called ++ ((s.funcs table).toList.reverse.take i).reduceOption }
  apply loop_result (k := 32) id upTo rfl (by simp [upTo]) (by decide)
  · intro i hi
    have hnext := take_handlers (s.funcs table) hi
    have hslot : (s.funcs table)[32 - i - 1]? = some (s.funcs table)[32 - i - 1] :=
      Vector.getElem?_eq_getElem (by omega)
    cases hf : (s.funcs table)[32 - i - 1] with
    | none =>
      rw [hf] at hslot hnext
      simp [upTo, hi, hslot, hnext, Nat.le_of_lt hi, show 1 ≤ 32 - i by omega,
        show i + 1 < 0x10000000000000000 by omega]
    | some f =>
      rw [hf] at hslot hnext
      simp [upTo, call, hi, hslot, hnext, Nat.le_of_lt hi, show 1 ≤ 32 - i by omega,
        show i + 1 < 0x10000000000000000 by omega]
  · have hall : (s.funcs table).toList.reverse.take 32 = (s.funcs table).toList.reverse :=
      List.take_of_length_le (by simp)
    simp [upTo, handlers, hall]

theorem terminate_run (exit_code : Int32) : (terminate table exit_code).run s =
    .ok (lowByte exit_code) { s with called := s.called ++ handlers (s.funcs table) } := by
  rw [terminate, bind_ok (runHandlers_run table s)]
  rfl

end Runs

/-- A table in which these handlers have been registered, in the order of the slots. -/
def filled (fs : List ExitFunc) : Slots := Vector.ofFn fun i => fs[i]?

theorem toList_filled {fs : List ExitFunc} (h : fs.length ≤ 32) :
    (filled fs).toList = fs.map some ++ List.replicate (32 - fs.length) none := by
  apply List.ext_getElem?
  intro i
  by_cases hi : i < fs.length
  · rw [List.getElem?_append_left (by simpa using hi)]
    simp [filled, hi, Nat.lt_of_lt_of_le hi h]
  · rw [List.getElem?_append_right (by simpa using hi)]
    by_cases hslot : i < 32
    · have hrest : i - fs.length < 32 - fs.length := by omega
      simp [filled, hslot, hi, hrest]
    · have hrest : 32 ≤ i - fs.length + fs.length := by omega
      simp [filled, hslot, hrest]

/-- Handlers registered in the order of the slots are called in the opposite order. -/
theorem handlers_filled {fs : List ExitFunc} (h : fs.length ≤ 32) :
    handlers (filled fs) = fs.reverse := by
  rw [handlers, toList_filled h, List.reverse_append, List.reverse_replicate,
    List.reduceOption_append, List.reduceOption_replicate_none, List.nil_append, ← List.map_reverse]
  simp [List.reduceOption]

/-- The first free slot of a table is taken, and the others are as they were. -/
def Takes (f : ExitFunc) (slots slots' : Slots) : Prop :=
  ∃ i : Fin 32, slots[i] = none ∧ (∀ j < i, slots[j] ≠ none) ∧ slots' = slots.set i (some f)

/-- What is promised of a process in which `done table` has been registered so far: the calls to
come register handlers as long as there are slots for them, and what terminates the process after
these calls runs the handlers of its own table, the last one first. -/
def Promised (s : Process) (done : Table → List ExitFunc) : List Table → Prop
  | [] => ∀ table exit_code, ∃ status s', (terminate table exit_code).run s = .ok status s' ∧
      (status.toNat : Int) = exit_code.toInt % 256 ∧ s'.funcs = s.funcs ∧
      s'.called = s.called ++ (done table).reverse
  | table :: calls => ∃ r s', (register table).run s = .ok r s' ∧ s'.called = s.called ∧
      (r = 0 ↔ (done table).length < 32) ∧
      if r = 0 then
        ∃ f slots, Takes f (s.funcs table) slots ∧ s'.funcs = Function.update s.funcs table slots ∧
          Promised s' (Function.update done table (done table ++ [f])) calls
      else s'.funcs = s.funcs ∧ Promised s' done calls

/-- The tables hold what has been registered, in the order of the slots. -/
def Represents (s : Process) (done : Table → List ExitFunc) : Prop :=
  ∀ table, (done table).length ≤ 32 ∧ s.funcs table = filled (done table)

theorem started_represents (raw posix_environ_raw : Words) :
    Represents (started raw posix_environ_raw) fun _ => [] := by
  intro table
  exact ⟨Nat.zero_le _, by ext; simp [started, filled]⟩

section Promises

variable {s : Process} {done : Table → List ExitFunc} {table : Table} {calls : List Table}

/-- The part of the promise that terminating keeps. -/
theorem terminate_promised (h : Represents s done) : Promised s done [] := by
  intro table exit_code
  obtain ⟨hlen, hfilled⟩ := h table
  refine ⟨_, _, terminate_run table s exit_code, lowByte_mod exit_code, rfl, ?_⟩
  rw [hfilled, handlers_filled hlen]

/-- A table that has taken a handler is not the table that it was. -/
theorem not_takes_self (f : ExitFunc) (slots : Slots) : ¬ Takes f slots slots := by
  rintro ⟨i, hfree, _, hset⟩
  have hsome : slots[i] = some f := by
    rw [hset]
    exact Vector.getElem_set_self i.isLt
  rw [hfree] at hsome
  cases hsome

theorem any_filled {fs : List ExitFunc} (h : fs.length ≤ 32) :
    (filled fs).toList.any Option.isSome = !fs.isEmpty := by
  rw [toList_filled h, List.any_append]
  cases fs with
  | nil => simp
  | cons f fs => simp

/-- No registration keeps the promise: the first one fails, and a later one returns 0 and takes no
slot, be there one or not. -/
theorem register_broken (h : Represents s done) : ¬ Promised s done (table :: calls) := by
  rintro ⟨r, s', hrun, _, hzero, htaken⟩
  obtain ⟨hlen, hfilled⟩ := h table
  rw [register_run, hfilled, any_filled hlen] at hrun
  cases hdone : done table with
  | nil =>
    rw [hdone] at hrun hzero
    cases hrun
    exact absurd (hzero.mpr (by decide)) (by decide)
  | cons f fs =>
    rw [hdone] at hrun
    cases hrun
    obtain ⟨f', slots, htakes, hfuncs, _⟩ := htaken
    have hsame : s.funcs table = slots := by
      rw [hfuncs, Function.update_self]
    exact not_takes_self f' slots (hsame ▸ htakes)

end Promises

/-- From the start of a process the promise is kept exactly if nothing is ever registered. -/
theorem handlers_promised_iff (raw posix_environ_raw : Words) (calls : List Table) :
    Promised (started raw posix_environ_raw) (fun _ => []) calls ↔ calls = [] := by
  have hstart := started_represents raw posix_environ_raw
  constructor
  · intro h
    cases calls with
    | nil => rfl
    | cons table calls => exact absurd h (register_broken hstart)
  · rintro rfl
    exact terminate_promised hstart

/-- The first call of atexit or at_quick_exit fails. -/
theorem atexit_fails : value? (atexit.run (started ⟨0, 0⟩ ⟨0, 0⟩)) = some 1 ∧
    value? (at_quick_exit.run (started ⟨0, 0⟩ ⟨0, 0⟩)) = some 1 ∧
    ¬ Promised (started ⟨0, 0⟩ ⟨0, 0⟩) (fun _ => []) [.exit_funcs] :=
  ⟨rfl, rfl, register_broken (started_represents _ _)⟩

end Stdlib
