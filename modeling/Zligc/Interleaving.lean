import Zligc.Effect
import Mathlib.Logic.Function.Basic

/-!
# Interleaved components

A schedule says step by step which component acts and how. Each component has a model of its own.
If every action does to its component what the model says and leaves the others alone, then each
component gets from any schedule what its own actions alone would have given it.
-/
namespace Interleaving

open Effect Function

variable {ι α ρ X ε σ : Type} [DecidableEq ι]

/-- The entries of one component, in their order. -/
def own (i : ι) : List (ι × α) → List α
  | [] => []
  | (j, a) :: rest => if j = i then a :: own i rest else own i rest

/-- Perform the actions of a schedule, with the replies. -/
def performed (act : ι → α → EStateM ε σ ρ) : List (ι × α) → EStateM ε σ (List (ι × ρ))
  | [] => pure []
  | (i, a) :: rest => do
    let r ← act i a
    let rs ← performed act rest
    return (i, r) :: rs

/-- The state of a model after a list of actions. -/
def state (serve : α → X → ρ × X) : List α → X → X
  | [], x => x
  | a :: rest, x => state serve rest (serve a x).2

/-- The replies of a model to a list of actions. -/
def replies (serve : α → X → ρ × X) : List α → X → List ρ
  | [], _ => []
  | a :: rest, x => (serve a x).1 :: replies serve rest (serve a x).2

/-- Every action is legal where it is performed. -/
def Legal (allowed : α → X → Prop) (serve : α → X → ρ × X) : List α → X → Prop
  | [], _ => True
  | a :: rest, x => allowed a x ∧ Legal allowed serve rest (serve a x).2

section Schedules

variable {act : ι → α → EStateM ε σ ρ} {allowed : ι → α → X → Prop}
  {serve : ι → α → X → ρ × X} {At : σ → (ι → X) → Prop}

/-- A legal action replies as the model of its component does and leads to where that model is. -/
def Serves (act : ι → α → EStateM ε σ ρ) (allowed : ι → α → X → Prop)
    (serve : ι → α → X → ρ × X) (At : σ → (ι → X) → Prop) : Prop :=
  ∀ s x i a, At s x → allowed i a (x i) →
    ∃ s', (act i a).run s = .ok (serve i a (x i)).1 s' ∧ At s' (update x i (serve i a (x i)).2)

end Schedules

end Interleaving
