import Mathlib.Logic.Function.Basic

/-!
# Threads that take turns

Every thread is at a place in its code and all of them share one state. A turn is one atomic step
of one thread; the trace of a run says who took which step. What an invariant keeps at every turn
holds at the end of every run, and what holds of every step with the trace before it can be
collected along the way.
-/
namespace Threads

open Function

variable {τ ℓ σ α : Type} [DecidableEq τ]

structure Config (τ ℓ σ : Type) where
  place : τ → ℓ
  shared : σ

/-- The runs from `c₀`, with what was done on the way. -/
inductive Reaches (acts : ℓ → σ → α → ℓ → σ → Prop) (c₀ : Config τ ℓ σ) :
    List (τ × α) → Config τ ℓ σ → Prop where
  | start : Reaches acts c₀ [] c₀
  | turn {trace : List (τ × α)} {c : Config τ ℓ σ} (t : τ) {a : α} {l : ℓ} {s : σ} :
      Reaches acts c₀ trace c → acts (c.place t) c.shared a l s →
      Reaches acts c₀ (trace ++ [(t, a)]) ⟨update c.place t l, s⟩

/-- Every step of the trace has the property, given the trace before it. -/
def Always (P : List α → α → Prop) (trace : List α) : Prop :=
  ∀ before a rest, trace = before ++ a :: rest → P before a

section Runs

variable {acts : ℓ → σ → α → ℓ → σ → Prop} {c₀ c c' : Config τ ℓ σ} {trace trace' : List (τ × α)}

/-- What holds at the start and is kept at every turn holds at the end of a run. -/
theorem Reaches.invariant {I : List (τ × α) → Config τ ℓ σ → Prop} (hstart : I [] c₀)
    (hturn : ∀ trace c t a l s, Reaches acts c₀ trace c → I trace c →
      acts (c.place t) c.shared a l s → I (trace ++ [(t, a)]) ⟨update c.place t l, s⟩)
    (h : Reaches acts c₀ trace c) : I trace c := by
  induction h with
  | start => exact hstart
  | turn t hrun hacts ih => exact hturn _ _ t _ _ _ hrun ih hacts

/-- What the place of a thread says about the past, if each thread keeps it for its own place and
the steps of the others do not matter, holds at the places of all threads. -/
theorem Reaches.local {P : τ → List (τ × α) → ℓ → Prop} (hstart : ∀ t, P t [] (c₀.place t))
    (hothers : ∀ t trace e l, e.1 ≠ t → P t trace l → P t (trace ++ [e]) l)
    (hown : ∀ trace c t a l s, Reaches acts c₀ trace c → P t trace (c.place t) →
      acts (c.place t) c.shared a l s → P t (trace ++ [(t, a)]) l)
    (h : Reaches acts c₀ trace c) (t : τ) : P t trace (c.place t) := by
  revert t
  apply h.invariant (I := fun trace c => ∀ t, P t trace (c.place t)) hstart
  intro trace c t a l s hrun hall hacts t'
  by_cases he : t' = t
  · subst he
    change P t' (trace ++ [(t', a)]) (update c.place t' l t')
    rw [update_self]
    exact hown trace c t' a l s hrun (hall t') hacts
  · change P t' (trace ++ [(t, a)]) (update c.place t l t')
    rw [update_of_ne he]
    exact hothers t' trace (t, a) _ (fun ht => he ht.symm) (hall t')

theorem Reaches.trans (h : Reaches acts c₀ trace c) (h' : Reaches acts c trace' c') :
    Reaches acts c₀ (trace ++ trace') c' := by
  induction h' with
  | start => rwa [List.append_nil]
  | turn t _ hacts ih =>
    rw [← List.append_assoc]
    exact ih.turn t hacts

/-- One step of a thread whose place is known. -/
theorem Reaches.step {place : τ → ℓ} {t : τ} {l l' : ℓ} {s s' : σ} {a : α}
    (hacts : acts l s a l' s') :
    Reaches acts ⟨update place t l, s⟩ [(t, a)] ⟨update place t l', s'⟩ := by
  have hplace : acts (update place t l t) s a l' s' := by
    rw [update_self]
    exact hacts
  have hturn := Reaches.turn (c := ⟨update place t l, s⟩) t .start hplace
  rwa [update_idem] at hturn

end Runs

theorem always_nil (P : List α → α → Prop) : Always P [] :=
  fun before a rest h => absurd h (by simp)

/-- One more step that has the property. -/
theorem Always.concat {P : List α → α → Prop} {trace : List α} (h : Always P trace) {a : α}
    (ha : P trace a) : Always P (trace ++ [a]) := by
  intro before b rest he
  rcases List.eq_nil_or_concat rest with rfl | ⟨rest, b', rfl⟩
  · obtain ⟨rfl, hab⟩ := List.append_inj' he rfl
    obtain rfl := (List.cons.inj hab).1
    exact ha
  · rw [List.concat_eq_append, ← List.cons_append, ← List.append_assoc] at he
    exact h before b rest (List.append_inj' he rfl).1

end Threads
