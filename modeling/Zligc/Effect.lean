import Mathlib.Order.Defs.Unbundled

/-!
# Faulting state programs and bounded loops

`EStateM ε σ α` runs from a state and either returns a value or stops with a
fault; the state reached is kept in both cases. A loop iterates its body under
an explicit bound on the number of rounds. The rules ask only that the bound
exceed the rounds actually taken, so a result never depends on its size.
-/
namespace Effect

variable {ε σ τ α β γ : Type}

/-- The state in which a run ended, by returning or by a fault. -/
def after : EStateM.Result ε σ α → σ
  | .ok _ s => s
  | .error _ s => s

/-- The value of a run that returned. -/
def value? : EStateM.Result ε σ α → Option α
  | .ok a _ => some a
  | .error _ _ => none

/-- The fault of a run that stopped. -/
def fault? : EStateM.Result ε σ α → Option ε
  | .ok _ _ => none
  | .error e _ => some e

@[simp] theorem after_ok (a : α) (s : σ) : after (.ok a s : EStateM.Result ε σ α) = s := rfl
@[simp] theorem after_error (e : ε) (s : σ) :
    after (.error e s : EStateM.Result ε σ α) = s := rfl
@[simp] theorem value?_ok (a : α) (s : σ) :
    value? (.ok a s : EStateM.Result ε σ α) = some a := rfl

/-- A run with a value has returned it. -/
theorem ok_of_value {r : EStateM.Result ε σ α} {a : α} (h : value? r = some a) :
    r = .ok a (after r) := by
  cases r with
  | ok b s =>
    obtain rfl := Option.some.inj h
    rfl
  | error e s => cases h

@[simp] theorem run_map (f : α → β) (x : EStateM ε σ α) (s : σ) :
    (f <$> x).run s =
      match x.run s with | .ok a s' => .ok (f a) s' | .error e s' => .error e s' := rfl

/-- The second condition runs only when the first one holds. -/
@[simp] theorem run_andM (x y : EStateM ε σ Bool) (s : σ) :
    (x <&&> y).run s =
      match x.run s with
      | .ok c s' => if c then y.run s' else .ok false s'
      | .error e s' => .error e s' := by
  rw [andM, EStateM.run_bind]
  cases x.run s with
  | ok c s' => cases c <;> rfl
  | error e s' => rfl

/-- The second condition runs only when the first one fails. -/
@[simp] theorem run_orM (x y : EStateM ε σ Bool) (s : σ) :
    (x <||> y).run s =
      match x.run s with
      | .ok c s' => if c then .ok true s' else y.run s'
      | .error e s' => .error e s' := by
  rw [orM, EStateM.run_bind]
  cases x.run s with
  | ok c s' => cases c <;> rfl
  | error e s' => rfl

theorem bind_ok {x : EStateM ε σ α} {s t : σ} {a : α} (h : x.run s = .ok a t)
    (f : α → EStateM ε σ β) : (x >>= f).run s = (f a).run t := by
  rw [EStateM.run_bind, h]

theorem andM_ok {x y : EStateM ε σ Bool} {s : σ} {a b : Bool} (hx : x.run s = .ok a s)
    (hy : y.run s = .ok b s) : (x <&&> y).run s = .ok (a && b) s := by
  rw [run_andM, hx]
  cases a with
  | false => rfl
  | true => exact hy

theorem andM_error {x : EStateM ε σ Bool} {s t : σ} {e : ε} (h : x.run s = .error e t)
    (y : EStateM ε σ Bool) : (x <&&> y).run s = .error e t := by
  rw [run_andM, h]

theorem orM_error {x : EStateM ε σ Bool} {s t : σ} {e : ε} (h : x.run s = .error e t)
    (y : EStateM ε σ Bool) : (x <||> y).run s = .error e t := by
  rw [run_orM, h]

theorem orM_ok {x y : EStateM ε σ Bool} {s : σ} {a b : Bool} (hx : x.run s = .ok a s)
    (hy : y.run s = .ok b s) : (x <||> y).run s = .ok (a || b) s := by
  rw [run_orM, hx]
  cases a with
  | false => exact hy
  | true => rfl

theorem orM_second {x : EStateM ε σ Bool} {s t : σ} (h : x.run s = .ok false t)
    (y : EStateM ε σ Bool) : (x <||> y).run s = y.run t := by
  rw [run_orM, h]
  rfl

theorem bind_error {x : EStateM ε σ α} {s t : σ} {e : ε} (h : x.run s = .error e t)
    (f : α → EStateM ε σ β) : (x >>= f).run s = .error e t := by
  rw [EStateM.run_bind, h]

theorem map_ok {x : EStateM ε σ α} {s t : σ} {a : α} (h : x.run s = .ok a t) (f : α → β) :
    (f <$> x).run s = .ok (f a) t := by
  rw [run_map, h]

/-- What a mapped program returned comes from what the program returned. -/
theorem of_map_ok {x : EStateM ε σ α} {f : α → β} {s t : σ} {b : β}
    (h : (f <$> x).run s = .ok b t) : ∃ a, x.run s = .ok a t ∧ f a = b := by
  rw [run_map] at h
  split at h
  · rename_i a t' hrun
    cases h
    exact ⟨a, hrun, rfl⟩
  · cases h

theorem map_error {x : EStateM ε σ α} {s t : σ} {e : ε} (h : x.run s = .error e t) (f : α → β) :
    (f <$> x).run s = .error e t := by
  rw [run_map, h]

/-- What one round of a loop decides: go round again, or leave with a result. -/
inductive Turn (β α : Type) where
  | next : β → Turn β α
  | done : α → Turn β α
  deriving DecidableEq, Repr

/-- Iterate `body` for at most the given number of rounds. -/
def loop (stuck : ε) (body : β → EStateM ε σ (Turn β α)) : Nat → β → EStateM ε σ α
  | 0, _ => throw stuck
  | n + 1, b => do
    match ← body b with
    | .next b' => loop stuck body n b'
    | .done a => pure a

/-- The results of running a program `n` times. -/
def repeated (x : EStateM ε σ α) : Nat → EStateM ε σ (List α)
  | 0 => pure []
  | n + 1 => do
    let a ← x
    let as ← repeated x n
    return a :: as

theorem repeated_succ {x : EStateM ε σ α} {n : Nat} {s t u : σ} {a : α} {as : List α}
    (h : x.run s = .ok a t) (hrest : (repeated x n).run t = .ok as u) :
    (repeated x (n + 1)).run s = .ok (a :: as) u := by
  rw [repeated, bind_ok h, bind_ok hrest, EStateM.run_pure]

section Rounds

variable {stuck : ε} {body : β → EStateM ε σ (Turn β α)} {n : Nat} {b b' : β} {s t : σ}

theorem loop_next (h : (body b).run s = .ok (.next b') t) :
    (loop stuck body (n + 1) b).run s = (loop stuck body n b').run t := by
  rw [loop, bind_ok h]

theorem loop_done {a : α} (hn : 0 < n) (h : (body b).run s = .ok (.done a) t) :
    (loop stuck body n b).run s = .ok a t := by
  cases n with
  | zero => cases hn
  | succ n => rw [loop, bind_ok h, EStateM.run_pure]

theorem loop_error {e : ε} (hn : 0 < n) (h : (body b).run s = .error e t) :
    (loop stuck body n b).run s = .error e t := by
  cases n with
  | zero => cases hn
  | succ n => rw [loop, bind_error h]

end Rounds

section Trajectories

variable {stuck : ε} {body : β → EStateM ε σ (Turn β α)} (b : Nat → β) (s : Nat → σ)
  {b₀ : β} {s₀ t : σ} {k n : Nat}

/-- A loop whose first `k` rounds follow a known trajectory is the loop started
at the end of the trajectory, with that many rounds less to spend. -/
theorem loop_follow
    (h : ∀ i, i < k → (body (b i)).run (s i) = .ok (.next (b (i + 1))) (s (i + 1)))
    (hk : k ≤ n) :
    (loop stuck body n (b 0)).run (s 0) = (loop stuck body (n - k) (b k)).run (s k) := by
  induction k generalizing n b s with
  | zero => simp
  | succ k ih =>
    obtain ⟨m, rfl⟩ : ∃ m, n = m + 1 := ⟨n - 1, by omega⟩
    rw [loop_next (h 0 (by omega))]
    have hrest := ih (n := m) (fun i => b (i + 1)) (fun i => s (i + 1))
      (fun i hi => h (i + 1) (by omega)) (by omega)
    simpa using hrest

/-- A trajectory that ends in a result gives the result of the loop. -/
theorem loop_result {a : α} (hb : b 0 = b₀) (hs : s 0 = s₀) (hk : k < n)
    (h : ∀ i, i < k → (body (b i)).run (s i) = .ok (.next (b (i + 1))) (s (i + 1)))
    (hlast : (body (b k)).run (s k) = .ok (.done a) t) :
    (loop stuck body n b₀).run s₀ = .ok a t := by
  rw [← hb, ← hs, loop_follow b s h (by omega)]
  exact loop_done (by omega) hlast

/-- A trajectory that ends in a fault gives the fault of the loop. -/
theorem loop_fault {e : ε} (hb : b 0 = b₀) (hs : s 0 = s₀) (hk : k < n)
    (h : ∀ i, i < k → (body (b i)).run (s i) = .ok (.next (b (i + 1))) (s (i + 1)))
    (hlast : (body (b k)).run (s k) = .error e t) :
    (loop stuck body n b₀).run s₀ = .error e t := by
  rw [← hb, ← hs, loop_follow b s h (by omega)]
  exact loop_error (by omega) hlast

end Trajectories

/-- A loop that an invariant keeps going round uses up every bound. -/
theorem loop_endless {stuck : ε} {body : β → EStateM ε σ (Turn β α)} {I : Nat → β → σ → Prop}
    (h : ∀ i b s, I i b s → ∃ b' t, (body b).run s = .ok (.next b') t ∧ I (i + 1) b' t)
    {i : Nat} {b : β} {s : σ} (hinit : I i b s) (n : Nat) :
    ∃ b' t, (loop stuck body n b).run s = .error stuck t ∧ I (i + n) b' t := by
  induction n generalizing i b s with
  | zero => exact ⟨b, s, rfl, hinit⟩
  | succ n ih =>
    obtain ⟨b₁, s₁, hround, hnext⟩ := h i b s hinit
    obtain ⟨b₂, s₂, hrest, hlast⟩ := ih hnext
    refine ⟨b₂, s₂, (loop_next hround).trans hrest, ?_⟩
    rwa [Nat.add_right_comm] at hlast

/-- However it ends, the program leads from its first state to a related one. -/
def Moves (R : σ → σ → Prop) (x : EStateM ε σ α) : Prop := ∀ s, R s (after (x.run s))

section Moving

variable {R : σ → σ → Prop} [IsPreorder σ R]

theorem moves_pure (a : α) : Moves R (pure a : EStateM ε σ α) := fun s => refl_of R s

theorem moves_throw (e : ε) : Moves R (throw e : EStateM ε σ α) := fun s => refl_of R s

/-- The rest of a program moves on from where its first part ended. -/
theorem moves_rest {x : EStateM ε σ α} {f : α → EStateM ε σ β} (hf : ∀ a, Moves R (f a)) (s : σ) :
    R (after (x.run s)) (after ((x >>= f).run s)) := by
  cases h : x.run s with
  | ok a s' =>
    rw [bind_ok h]
    exact hf a s'
  | error e s' =>
    rw [bind_error h]
    exact refl_of R s'

theorem moves_bind {x : EStateM ε σ α} {f : α → EStateM ε σ β} (hx : Moves R x)
    (hf : ∀ a, Moves R (f a)) : Moves R (x >>= f) :=
  fun s => trans_of R (hx s) (moves_rest hf s)

theorem moves_loop {stuck : ε} {body : β → EStateM ε σ (Turn β α)} (h : ∀ b, Moves R (body b))
    (n : Nat) (b : β) : Moves R (loop stuck body n b) := by
  induction n generalizing b with
  | zero => exact moves_throw stuck
  | succ n ih =>
    refine moves_bind (h b) fun turn => ?_
    cases turn with
    | next b' => exact ih b'
    | done a => exact moves_pure a

end Moving

/-- From a state in `P` the program returns in `Q` or faults in `E`. -/
def Triple (P : σ → Prop) (x : EStateM ε σ α) (Q : α → σ → Prop) (E : σ → Prop) : Prop :=
  ∀ s, P s → match x.run s with
    | .ok a t => Q a t
    | .error _ t => E t

section Triples

variable {P P' E : σ → Prop} {Q Q' : α → σ → Prop} {R : β → σ → Prop}

theorem triple_pure {a : α} (h : ∀ s, P s → Q a s) :
    Triple P (pure a : EStateM ε σ α) Q E := h

theorem triple_throw {e : ε} (h : ∀ s, P s → E s) : Triple P (throw e : EStateM ε σ α) Q E := h

theorem triple_conseq {x : EStateM ε σ α} (h : Triple P x Q E) (hP : ∀ s, P' s → P s)
    (hQ : ∀ a s, Q a s → Q' a s) : Triple P' x Q' E := by
  intro s hs
  have hrun := h s (hP s hs)
  split at hrun
  · exact hQ _ _ hrun
  · exact hrun

theorem triple_bind {x : EStateM ε σ α} {f : α → EStateM ε σ β} (hx : Triple P x Q E)
    (hf : ∀ a, Triple (Q a) (f a) R E) : Triple P (x >>= f) R E := by
  intro s hs
  have hrun := hx s hs
  cases h : x.run s with
  | ok a t =>
    rw [h] at hrun
    rw [bind_ok h]
    exact hf a t hrun
  | error e t =>
    rw [h] at hrun
    rw [bind_error h]
    exact hrun

/-- A program that moves along a relation keeps what the relation keeps. -/
theorem triple_moves {x : EStateM ε σ α} {M : σ → σ → Prop} (h : Moves M x)
    (hQ : ∀ a s t, P s → M s t → Q a t) (hE : ∀ s t, P s → M s t → E t) : Triple P x Q E := by
  intro s hs
  have hm := h s
  split
  · rename_i a t hrun
    rw [hrun] at hm
    exact hQ a s t hs hm
  · rename_i e t hrun
    rw [hrun] at hm
    exact hE s t hs hm

/-- A loop whose rounds keep an invariant of what they go round with. -/
theorem triple_loop {stuck : ε} {body : β → EStateM ε σ (Turn β α)} {I : β → σ → Prop}
    (h : ∀ b, Triple (I b) (body b)
      (fun turn s => match turn with | .next b' => I b' s | .done a => Q a s) E)
    (hE : ∀ b s, I b s → E s) (n : Nat) (b : β) : Triple (I b) (loop stuck body n b) Q E := by
  induction n generalizing b with
  | zero => exact triple_throw (hE b)
  | succ n ih =>
    refine triple_bind (h b) fun turn => ?_
    cases turn with
    | next b' => exact ih b'
    | done a => exact triple_pure fun _ hs => hs

/-- The state a run ends in, however it ends. -/
theorem triple_after {x : EStateM ε σ α} (h : Triple P x (fun _ => E) E) {s : σ} (hs : P s) :
    E (after (x.run s)) := by
  have hrun := h s hs
  split at hrun
  · rename_i a t hx
    rw [hx]
    exact hrun
  · rename_i e t hx
    rw [hx]
    exact hrun

end Triples

end Effect
