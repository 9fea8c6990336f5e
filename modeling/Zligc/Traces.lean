import Zligc.Interleaving

/-!
# Interleaved components that may answer in several ways

What an action does to its component is a relation here. A schedule leads every component along a
trace of its own actions, and one that is stopped leads it along a trace of those that were done.
-/
namespace Traces

open Effect Function Interleaving

variable {ι α ρ X ε σ : Type}

/-- Actions, their replies, and the states before and after them. -/
inductive Trace (may : α → X → ρ → X → Prop) : List α → List ρ → X → X → Prop where
  | nil (x : X) : Trace may [] [] x x
  | cons {a : α} {as : List α} {r : ρ} {rs : List ρ} {x y z : X} :
      may a x r y → Trace may as rs y z → Trace may (a :: as) (r :: rs) x z

/-- Where a part of the actions has got a part of the replies, a trace can be parted. -/
theorem Trace.split {may : α → X → ρ → X → Prop} {as bs : List α} {rs ss : List ρ} {x z : X}
    (h : Trace may (as ++ bs) (rs ++ ss) x z) (hlen : rs.length = as.length) :
    ∃ y, Trace may as rs x y ∧ Trace may bs ss y z := by
  induction as generalizing rs x with
  | nil =>
    rw [List.length_nil, List.length_eq_zero_iff] at hlen
    subst hlen
    exact ⟨x, .nil x, h⟩
  | cons a as ih =>
    cases rs with
    | nil => cases hlen
    | cons r rs =>
      cases h with
      | cons hfirst hrest =>
        obtain ⟨y, hpart, htail⟩ := ih hrest (Nat.succ.inj hlen)
        exact ⟨y, .cons hfirst hpart, htail⟩

/-- The run of a schedule whose first action returns. -/
theorem performed_next {act : ι → α → EStateM ε σ ρ} (schedule : List (ι × α)) {j : ι} {a : α}
    {r : ρ} {s s₁ : σ} (hrun : (act j a).run s = .ok r s₁) :
    after ((performed act ((j, a) :: schedule)).run s) = after ((performed act schedule).run s₁) ∧
    value? ((performed act ((j, a) :: schedule)).run s) =
      (value? ((performed act schedule).run s₁)).map ((j, r) :: ·) := by
  rw [performed, bind_ok hrun]
  cases hrest : (performed act schedule).run s₁ with
  | ok all t =>
    rw [bind_ok hrest]
    exact ⟨rfl, rfl⟩
  | error e t =>
    rw [bind_error hrest]
    exact ⟨rfl, rfl⟩

variable [DecidableEq ι] {act : ι → α → EStateM ε σ ρ} {allowed : ι → α → Prop}
  {may : ι → α → X → ρ → X → Prop} {stops : ι → α → Prop} {At : σ → (ι → X) → Prop}

/-- A run of a schedule has led every component from `x` to `y` along its own actions, all of them
if it returned and otherwise those before one that stops. -/
structure Outcome (may : ι → α → X → ρ → X → Prop) (stops : ι → α → Prop)
    (At : σ → (ι → X) → Prop) (schedule : List (ι × α)) (x y : ι → X)
    (result : EStateM.Result ε σ (List (ι × ρ))) (done : List (ι × α)) (rs : ι → List ρ) :
    Prop where
  at_end : At (after result) y
  traces : ∀ i, Trace (may i) (own i done) (rs i) (x i) (y i)
  ended : (done = schedule ∧ ∃ all, value? result = some all ∧ ∀ i, own i all = rs i) ∨
    ∃ i a rest, schedule = done ++ (i, a) :: rest ∧ stops i a ∧ value? result = none

theorem Outcome.next {schedule done : List (ι × α)} {x y : ι → X} {z : X} {rs : ι → List ρ} {j : ι}
    {a : α} {r : ρ} {s s₁ : σ} (hrun : (act j a).run s = .ok r s₁) (hmay : may j a (x j) r z)
    (h : Outcome may stops At schedule (update x j z) y ((performed act schedule).run s₁) done rs) :
    Outcome may stops At ((j, a) :: schedule) x y
      ((performed act ((j, a) :: schedule)).run s) ((j, a) :: done)
      fun i => if j = i then r :: rs i else rs i := by
  obtain ⟨hafter, hvalue⟩ := performed_next schedule hrun
  constructor
  · rw [hafter]
    exact h.at_end
  · intro i
    have htrace := h.traces i
    by_cases hi : j = i
    · subst hi
      rw [update_self] at htrace
      rw [own, if_pos rfl, if_pos rfl]
      exact .cons hmay htrace
    · rw [update_of_ne (Ne.symm hi)] at htrace
      rw [own, if_neg hi, if_neg hi]
      exact htrace
  · rw [hvalue]
    rcases h.ended with ⟨rfl, all, hall, hown⟩ | ⟨i, b, rest, rfl, hstops, hnone⟩
    · refine Or.inl ⟨rfl, (j, r) :: all, ?_, fun i => ?_⟩
      · rw [hall, Option.map_some]
      · rw [own, hown i]
    · refine Or.inr ⟨i, b, rest, rfl, hstops, ?_⟩
      rw [hnone, Option.map_none]

end Traces
