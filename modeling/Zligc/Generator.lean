import Mathlib.Data.List.Basic

/-!
# Restartable generators

A generator is asked for its next value or restarted from a key. What it answers after a restart
is the beginning of the sequence of the key, whatever was asked before.
-/
namespace Generator

variable {σ κ α β : Type}

inductive Request (κ : Type) where
  | next
  | restart (k : κ)
  deriving DecidableEq, Repr

structure Source (σ κ α : Type) where
  init : κ → σ
  next : σ → α × σ

/-- The state after `n` values. -/
def Source.skip (g : Source σ κ α) : Nat → σ → σ
  | 0, s => s
  | n + 1, s => (g.next (g.skip n s)).2

/-- The value number `n` of the sequence of a key. -/
def Source.value (g : Source σ κ α) (k : κ) (n : Nat) : α := (g.next (g.skip n (g.init k))).1

/-- The values that a generator answers from a state. -/
def Source.answers (g : Source σ κ α) : σ → List (Request κ) → List α
  | _, [] => []
  | s, .next :: rs => (g.next s).1 :: g.answers (g.next s).2 rs
  | _, .restart k :: rs => g.answers (g.init k) rs

/-- The answers that sequences, one for each key, give from a place in one of them. -/
def expected (values : κ → Nat → α) : κ → Nat → List (Request κ) → List α
  | _, _, [] => []
  | k, n, .next :: rs => values k n :: expected values k (n + 1) rs
  | _, _, .restart k :: rs => expected values k 0 rs

/-- How many values are asked for before the first restart. -/
def leading : List (Request κ) → Nat
  | .next :: rs => leading rs + 1
  | _ => 0

variable {k k' : κ} {n : Nat} {rs : List (Request κ)} {values : κ → Nat → α}

theorem answers_append (g : Source σ κ α) (s : σ) (before : List (Request κ)) (k : κ)
    (rs : List (Request κ)) :
    g.answers s (before ++ .restart k :: rs) = g.answers s before ++ g.answers (g.init k) rs := by
  induction before generalizing s with
  | nil => rfl
  | cons r before ih =>
    cases r with
    | next => exact congrArg _ (ih (g.next s).2)
    | restart k' => exact ih (g.init k')

/-- A generator answers from its sequences. -/
theorem answers_skip (g : Source σ κ α) (k : κ) (n : Nat) (rs : List (Request κ)) :
    g.answers (g.skip n (g.init k)) rs = expected g.value k n rs := by
  induction rs generalizing k n with
  | nil => rfl
  | cons r rs ih =>
    cases r with
    | next => exact congrArg _ (ih k (n + 1))
    | restart k' => exact ih k' 0

theorem answers_init (g : Source σ κ α) (k : κ) (rs : List (Request κ)) :
    g.answers (g.init k) rs = expected g.value k 0 rs := answers_skip g k 0 rs

theorem expected_map (f : α → β) : (expected values k n rs).map f =
    expected (fun k n => f (values k n)) k n rs := by
  induction rs generalizing k n with
  | nil => rfl
  | cons r rs ih =>
    cases r with
    | next => exact congrArg _ ih
    | restart k' => exact ih

theorem expected_replicate (values : κ → Nat → α) (k : κ) (n m : Nat) :
    expected values k m (List.replicate n .next) =
      (List.range n).map fun i => values k (m + i) := by
  induction n generalizing m with
  | zero => rfl
  | succ n ih =>
    rw [List.replicate_succ, expected, ih, List.range_succ_eq_map, List.map_cons, List.map_map]
    simp [Function.comp_def, Nat.add_right_comm, Nat.add_assoc]

/-- The answers depend on the first key as far as values are asked for before a restart. -/
theorem expected_eq_iff : expected values k n rs = expected values k' n rs ↔
    ∀ i < leading rs, values k (n + i) = values k' (n + i) := by
  induction rs generalizing n with
  | nil => simp [expected, leading]
  | cons r rs ih =>
    cases r with
    | restart k => simp [expected, leading]
    | next =>
      rw [expected, expected, List.cons.injEq, ih, leading]
      constructor
      · rintro ⟨hfirst, hrest⟩ i hi
        cases i with
        | zero => exact hfirst
        | succ i =>
          have hi := hrest i (by omega)
          rwa [Nat.add_right_comm] at hi
      · intro h
        refine ⟨h 0 (by omega), fun i hi => ?_⟩
        have hi := h (i + 1) (by omega)
        rwa [Nat.add_right_comm]

end Generator
