import Mathlib.Data.List.Basic

/-!
# Format strings

In a format the mark and the character behind it are a directive. Read from left to right, every
format falls in just one way into plain characters, directives and perhaps a mark at its end.
-/
namespace FormatString

variable {α : Type}

inductive Piece (α : Type) where
  | plain (c : α)
  | directive (c : α)
  | trailing
  deriving DecidableEq, Repr

/-- The pieces of a format, from left to right. -/
inductive Decomposes (mark : α) : List α → List (Piece α) → Prop where
  | nil : Decomposes mark [] []
  | plain {c : α} {s : List α} {ps : List (Piece α)} :
      c ≠ mark → Decomposes mark s ps → Decomposes mark (c :: s) (.plain c :: ps)
  | directive {c : α} {s : List α} {ps : List (Piece α)} :
      Decomposes mark s ps → Decomposes mark (mark :: c :: s) (.directive c :: ps)
  | trailing : Decomposes mark [mark] [.trailing]

/-- What a piece becomes: a plain character stays, and a mark alone leaves nothing. -/
def Piece.expand (render : α → List α) : Piece α → List α
  | .plain c => [c]
  | .directive c => render c
  | .trailing => []

def expand (render : α → List α) (ps : List (Piece α)) : List α := ps.flatMap (·.expand render)

/-- A format that ends inside a directive has a mark as its last piece. -/
def Closed (ps : List (Piece α)) : Prop := .trailing ∉ ps

variable {mark c : α} {s t : List α} {ps qs : List (Piece α)}

theorem Decomposes.unique (h : Decomposes mark s ps) (h' : Decomposes mark s qs) : ps = qs := by
  induction h generalizing qs with
  | nil =>
    cases h'
    rfl
  | plain hne _ ih =>
    cases h' with
    | plain _ h' => rw [ih h']
    | directive | trailing => exact absurd rfl hne
  | directive _ ih =>
    cases h' with
    | plain hne _ => exact absurd rfl hne
    | directive h' => rw [ih h']
  | trailing =>
    cases h' with
    | plain hne _ => exact absurd rfl hne
    | trailing => rfl

/-- Behind a format that is complete another one begins. -/
theorem Decomposes.append (h : Decomposes mark s ps) (hps : Closed ps)
    (h' : Decomposes mark t qs) : Decomposes mark (s ++ t) (ps ++ qs) := by
  induction h with
  | nil => exact h'
  | plain hne _ ih => exact .plain hne (ih fun hmem => hps (.tail _ hmem))
  | directive _ ih => exact .directive (ih fun hmem => hps (.tail _ hmem))
  | trailing => exact absurd (.head _) hps

section Marks

variable [DecidableEq α]

/-- Let every mark stand twice. -/
def double (mark : α) (s : List α) : List α := s.flatMap fun c => if c = mark then [c, c] else [c]

theorem decomposes_double (mark : α) (s : List α) :
    Decomposes mark (double mark s)
      (s.map fun c => if c = mark then .directive mark else .plain c) := by
  induction s with
  | nil => exact .nil
  | cons c s ih =>
    rw [double, List.flatMap_cons, List.map_cons]
    by_cases hc : c = mark
    · subst hc
      rw [if_pos rfl, if_pos rfl]
      exact .directive ih
    · rw [if_neg hc, if_neg hc]
      exact .plain hc ih

/-- Doubled marks stand for themselves. -/
theorem expand_double {render : α → List α} (hmark : render mark = [mark]) (s : List α) :
    expand render (s.map fun c => if c = mark then .directive mark else .plain c) = s := by
  induction s with
  | nil => rfl
  | cons c s ih =>
    rw [List.map_cons, expand, List.flatMap_cons]
    by_cases hc : c = mark
    · subst hc
      rw [if_pos rfl]
      exact congrArg₂ (· ++ ·) hmark ih
    · rw [if_neg hc]
      exact congrArg (c :: ·) ih

theorem decomposes_total (mark : α) : ∀ s : List α, ∃ ps, Decomposes mark s ps
  | [] => ⟨[], .nil⟩
  | [c] => by
    by_cases hc : c = mark
    · subst hc
      exact ⟨[.trailing], .trailing⟩
    · exact ⟨[.plain c], .plain hc .nil⟩
  | c :: d :: s => by
    by_cases hc : c = mark
    · subst hc
      obtain ⟨ps, h⟩ := decomposes_total c s
      exact ⟨.directive d :: ps, .directive h⟩
    · obtain ⟨ps, h⟩ := decomposes_total mark (d :: s)
      exact ⟨.plain c :: ps, .plain hc h⟩

/-- Every format falls into pieces in just one way. -/
theorem decomposes_once (mark : α) (s : List α) : ∃! ps, Decomposes mark s ps := by
  obtain ⟨ps, h⟩ := decomposes_total mark s
  exact ⟨ps, h, fun qs h' => h'.unique h⟩

end Marks

theorem expand_append (render : α → List α) (ps qs : List (Piece α)) :
    expand render (ps ++ qs) = expand render ps ++ expand render qs := List.flatMap_append

end FormatString
