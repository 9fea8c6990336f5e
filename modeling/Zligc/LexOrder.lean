import Mathlib.Tactic.ByContra

/-!
# Three-way comparison and the lexicographic order

`threeWay` is the outcome of comparing two elements of a linear order. On lists
the order is the lexicographic one, in which a proper prefix comes first; the
outcome is decided where the two lists first part.
-/
namespace LexOrder

/-- The lists agree up to a common prefix and then part: one of them ends, or their next
elements differ. -/
theorem split_common {α : Type} [DecidableEq α] (s t : List α) :
    ∃ p s' t', s = p ++ s' ∧ t = p ++ t' ∧
      ∀ x y, s'.head? = some x → t'.head? = some y → x ≠ y := by
  induction s generalizing t with
  | nil => exact ⟨[], [], t, rfl, rfl, by simp⟩
  | cons x s ih =>
    cases t with
    | nil => exact ⟨[], x :: s, [], rfl, rfl, by simp⟩
    | cons y t =>
      by_cases hxy : x = y
      · subst hxy
        obtain ⟨p, s', t', rfl, rfl, h⟩ := ih t
        exact ⟨x :: p, s', t', rfl, rfl, h⟩
      · exact ⟨[], x :: s, y :: t, rfl, rfl, by simpa using hxy⟩

section Outcome

variable {α : Type} [LT α] [DecidableLT α] [DecidableEq α]

def threeWay (a b : α) : Ordering := if a < b then .lt else if a = b then .eq else .gt

theorem threeWay_eq_lt {a b : α} : threeWay a b = .lt ↔ a < b := by
  unfold threeWay
  split
  · simp_all
  · split <;> simp_all

theorem threeWay_nil_cons (y : α) (t : List α) : threeWay [] (y :: t) = .lt := by
  rw [threeWay_eq_lt]
  exact List.nil_lt_cons y t

theorem threeWay_cons_nil (x : α) (s : List α) : threeWay (x :: s) [] = .gt := by
  simp [threeWay]

theorem threeWay_cons_cons {x y : α} (h : x ≠ y) (s t : List α) :
    threeWay (x :: s) (y :: t) = threeWay x y := by
  simp [threeWay, List.cons_lt_cons_iff, h]

theorem threeWay_append [Std.Irrefl (α := α) (· < ·)] (p s t : List α) :
    threeWay (p ++ s) (p ++ t) = threeWay s t := by
  induction p with
  | nil => rfl
  | cons x p ih =>
    rw [← ih]
    simp [threeWay]

end Outcome

section Linear

variable {α : Type} [LT α] [LE α] [Std.IsLinearOrder α] [Std.LawfulOrderLT α] [DecidableLT α]
  [DecidableEq α]

theorem threeWay_eq_gt {a b : α} : threeWay a b = .gt ↔ b < a := by
  unfold threeWay
  split
  · rename_i hlt
    simp only [reduceCtorEq, false_iff]
    exact fun hgt => Std.lt_irrefl (Std.lt_trans hlt hgt)
  · split
    · rename_i heq
      subst heq
      simp only [reduceCtorEq, false_iff]
      exact Std.lt_irrefl
    · rename_i hlt hne
      simp only [true_iff]
      exact Std.lt_of_le_of_ne (Std.not_lt.mp hlt) (fun he => hne he.symm)

theorem threeWay_eq_eq {a b : α} : threeWay a b = .eq ↔ a = b := by
  constructor
  · intro h
    have hle : ¬ a < b := by rw [← threeWay_eq_lt, h]; decide
    have hge : ¬ b < a := by rw [← threeWay_eq_gt, h]; decide
    exact Std.le_antisymm (Std.not_lt.mp hge) (Std.not_lt.mp hle)
  · rintro rfl
    simp [threeWay, Std.lt_irrefl]

theorem threeWay_swap (a b : α) : threeWay b a = (threeWay a b).swap := by
  cases h : threeWay a b with
  | lt => exact threeWay_eq_gt.mpr (threeWay_eq_lt.mp h)
  | eq => exact threeWay_eq_eq.mpr (threeWay_eq_eq.mp h).symm
  | gt => exact threeWay_eq_lt.mpr (threeWay_eq_gt.mp h)

theorem threeWay_ne_gt {a b : α} : threeWay a b ≠ .gt ↔ a ≤ b := by
  rw [Ne, threeWay_eq_gt, Std.not_lt]

/-- Lists closed by a least element that they do not contain compare like the lists
themselves already on the closed shorter one. -/
theorem threeWay_closed {z : α} (hz : ∀ x, x ≠ z → z < x) {s t : List α} (hs : z ∉ s)
    (ht : z ∉ t) :
    threeWay ((s ++ [z]).take (min s.length t.length + 1))
      ((t ++ [z]).take (min s.length t.length + 1)) = threeWay s t := by
  obtain ⟨p, s', t', rfl, rfl, hpart⟩ := split_common s t
  have hmin : min (p ++ s').length (p ++ t').length + 1 =
      p.length + (min s'.length t'.length + 1) := by
    simp only [List.length_append]
    omega
  rw [hmin, List.append_assoc, List.append_assoc, List.take_length_add_append,
    List.take_length_add_append, threeWay_append, threeWay_append]
  simp only [List.mem_append, not_or] at hs ht
  cases s' with
  | nil =>
    cases t' with
    | nil => rw [threeWay_eq_eq.mpr rfl, threeWay_eq_eq.mpr rfl]
    | cons y t' =>
      have hzy : z < y := hz y (fun he => ht.2 (by simp [he]))
      have hne : z ≠ y := fun he => Std.lt_irrefl (he ▸ hzy)
      simp only [List.nil_append, List.cons_append, List.length_nil, Nat.zero_min, Nat.zero_add,
        List.take_succ_cons, List.take_zero]
      rw [threeWay_cons_cons hne, threeWay_eq_lt.mpr hzy, threeWay_nil_cons]
  | cons x s' =>
    have hzx : z < x := hz x (fun he => hs.2 (by simp [he]))
    cases t' with
    | nil =>
      have hne : x ≠ z := fun he => Std.lt_irrefl (he ▸ hzx)
      simp only [List.nil_append, List.cons_append, List.length_nil, Nat.min_zero, Nat.zero_add,
        List.take_succ_cons, List.take_zero]
      rw [threeWay_cons_cons hne, threeWay_eq_gt.mpr hzx, threeWay_cons_nil]
    | cons y t' =>
      have hxy : x ≠ y := hpart x y rfl rfl
      simp only [List.cons_append, List.take_succ_cons]
      rw [threeWay_cons_cons hxy, threeWay_cons_cons hxy]

end Linear

end LexOrder
