import Mathlib.Data.List.Basic

/-!
# Tables filled from pairs

A table of fixed length takes the values of a list of pairs at their keys, from left to right. A
pair whose key lies outside the table is skipped, and of several pairs with one key the last wins.
-/
namespace KeyedTable

variable {β : Type} {n : Nat}

def put (table : Vector β n) (pair : Nat × β) : Vector β n :=
  if h : pair.1 < n then table.set pair.1 pair.2 h else table

def fill (table : Vector β n) (pairs : List (Nat × β)) : Vector β n := pairs.foldl put table

/-- The value of the last pair with a key. -/
def LastWith (pairs : List (Nat × β)) (k : Nat) (v : β) : Prop :=
  ∃ before after, pairs = before ++ (k, v) :: after ∧ ∀ pair ∈ after, pair.1 ≠ k

variable {table : Vector β n} {pairs : List (Nat × β)} {k : Nat}

theorem put_same (hk : k < n) (v : β) : (put table (k, v))[k] = v := by
  simp [put, hk]

theorem put_other {pair : Nat × β} (hk : k < n) (hne : pair.1 ≠ k) :
    (put table pair)[k] = table[k] := by
  unfold put
  split
  · exact Vector.getElem_set_ne _ hk hne
  · rfl

/-- A key that no pair has keeps its value. -/
theorem fill_missing (hk : k < n) (h : ∀ pair ∈ pairs, pair.1 ≠ k) :
    (fill table pairs)[k] = table[k] := by
  induction pairs generalizing table with
  | nil => rfl
  | cons pair pairs ih =>
    rw [List.forall_mem_cons] at h
    calc (fill table (pair :: pairs))[k] = (put table pair)[k] := ih h.2
      _ = table[k] := put_other hk h.1

theorem fill_last {v : β} (hk : k < n) (h : LastWith pairs k v) : (fill table pairs)[k] = v := by
  obtain ⟨before, after, rfl, hafter⟩ := h
  have hfill : fill table (before ++ (k, v) :: after) =
      fill (put (fill table before) (k, v)) after := List.foldl_append
  calc (fill table (before ++ (k, v) :: after))[k]
      = (fill (put (fill table before) (k, v)) after)[k] := by rw [hfill]
    _ = (put (fill table before) (k, v))[k] := fill_missing hk hafter
    _ = v := put_same hk v

end KeyedTable
