import Zligc.StringMemory

/-!
# memmove

Whatever the distance between the two ranges, every byte is read before it is
overwritten: a copy upwards never overtakes a source above it, and a copy downwards
never one below it. Ranges that overlap are not left to memcpy.
-/
namespace ZligcString

open Effect CellMemory Zig

/-- The bytes from `src` on in the first memory lie from `dest` on in the second one, and every other
byte is the same in both. -/
structure Moved (m m' : Mem) (dest src count : Nat) : Prop where
  copied : ∀ i, i < count → m'.cell (dest + i) = m.cell (src + i)
  kept : ∀ p, p < dest ∨ dest + count ≤ p → m'.cell p = m.cell p

/-- What memmove does does not depend on memcpy, unless the two ranges are disjoint. -/
def DelegatesApart (dest src count : Nat) : Prop :=
  ¬ Apart dest count src count → ∀ memcpy' : Nat → Nat → Nat → Run Mem Nat,
    memmoveWith memcpy' dest src count = memmove dest src count

variable {σ : Type} [HasMem σ] [Watched σ] {A : Nat → Nat → Prop} {m : Mem} {dest src count : Nat}
  {xs : List UInt8}

/-- The last bytes are copied first: after `ri` rounds the part of the list from
`count - ri` on lies in its place. -/
theorem copyBackward_yields (h : Holds m src xs) (hm : Mapped m dest xs.length)
    (ha : ∀ i j, i < j → j < xs.length → src + i ≠ dest + j)
    (hA : ∀ i, i < xs.length → A src i) :
    Yields A m (copyBackward dest src xs.length : Run σ Nat) dest (write m dest xs) := by
  have hlen := h.mapped.length_lt (by decide)
  apply Yields.bind (a := ()) (n := write m dest xs) ?_ (yields_pure dest)
  apply yields_while (fun ri => ri)
    (fun ri => write m (dest + (xs.length - ri)) (xs.drop (xs.length - ri))) rfl (by simp)
    (k := xs.length) (by omega)
  · intro ri hri u hu
    obtain ⟨i, hi⟩ : ∃ i, xs.length = ri + i + 1 := ⟨xs.length - ri - 1, by omega⟩
    have hback : xs.length - ri = i + 1 := by omega
    have hnext : xs.length - (ri + 1) = i := by omega
    have hx : i < xs.length := by omega
    have hdrop : (xs.drop (i + 1)).length = ri := by rw [List.length_drop]; omega
    have hcell : (write m (dest + (i + 1)) (xs.drop (i + 1))).cell (src + i) = some xs[i] := by
      rw [write_outside, h.cell hx]
      by_contra hin
      exact ha i (src + i - dest) (by omega) (by omega) (by omega)
    have hmap : ((write m (dest + (i + 1)) (xs.drop (i + 1))).cell (dest + i)).isSome := by
      rw [write_mapped]
      exact hm i hx
    have hadd : ri + 1 < 0x10000000000000000 := by omega
    have hsub : ri ≤ xs.length := by omega
    have hone : 1 ≤ xs.length - ri := by omega
    have hlast : xs.length - ri - 1 = i := by omega
    rw [hback] at hu
    rw [hnext]
    simp [hu, hri, hsub, hone, hlast, hcell, hmap, hadd, hA i hx, write_drop_succ m dest hx]
  · intro u hu
    rw [Nat.sub_self, List.drop_zero] at hu
    simp [hu]

/-- The condition under which memmove delegates. -/
theorem disjoint_run (hd : dest + count < 0x10000000000000000)
    (hs : src + count < 0x10000000000000000) (m : Mem) :
    ((return decide ((← add dest count) ≤ src)) <||> (return decide ((← add src count) ≤ dest)) :
      Run Mem Bool).run m = .ok (decide (dest + count ≤ src) || decide (src + count ≤ dest)) m := by
  apply orM_ok
  · rw [bind_ok (add_run m hd), EStateM.run_pure]
  · rw [bind_ok (add_run m hs), EStateM.run_pure]

/-- It holds only for ranges that are disjoint, also where the address space ends inside one of
them. -/
theorem apart_of_disjoint {m t : Mem}
    (h : ((return decide ((← add dest count) ≤ src)) <||>
        (return decide ((← add src count) ≤ dest)) : Run Mem Bool).run m = .ok true t) :
    Apart dest count src count := by
  have hends : dest + count ≤ src ∨ src + count ≤ dest := by
    by_contra hno
    rw [not_or] at hno
    by_cases hd : dest + count < 0x10000000000000000
    · by_cases hs : src + count < 0x10000000000000000
      · rw [disjoint_run hd hs, decide_eq_false hno.1, decide_eq_false hno.2] at h
        cases h
      · have hfirst := bind_ok (add_run m hd) fun end_p => pure (decide (end_p ≤ src))
        rw [decide_eq_false hno.1] at hfirst
        rw [orM_second hfirst, bind_error (add_fault m hs)] at h
        cases h
    · rw [orM_error (bind_error (add_fault m hd) _)] at h
      cases h
  intro i hi j hj
  omega

/-- What follows a test that does not succeed does not depend on what follows its success. -/
theorem untaken {α : Type} {test : Run Mem Bool} (h : ∀ t, test.run m ≠ .ok true t)
    (yes yes' no : Run Mem α) :
    (test >>= fun b => if b then yes else no).run m =
      (test >>= fun b => if b then yes' else no).run m := by
  cases hrun : test.run m with
  | ok b t =>
    rw [bind_ok hrun, bind_ok hrun]
    cases b with
    | true => exact absurd hrun (h t)
    | false => rfl
  | error e t => rw [bind_error hrun, bind_error hrun]

theorem delegates_apart (dest src count : Nat) : DelegatesApart dest src count := by
  intro hover copy
  funext m
  rw [memmove, memmoveWith, memmoveWith]
  split
  · rfl
  · exact untaken (fun t ht => hover (apart_of_disjoint ht)) _ _ _

theorem memmove_run (h : Holds m src xs) (hm : Mapped m dest xs.length)
    (hd : dest + xs.length < 0x10000000000000000) (hs : src + xs.length < 0x10000000000000000) :
    (memmove dest src xs.length).run m = .ok dest (write m dest xs) := by
  rw [memmove, memmoveWith]
  by_cases heq : dest = src
  · subst heq
    rw [if_pos rfl, h.write_self]
    rfl
  · rw [if_neg heq]
    apply (bind_ok (disjoint_run hd hs m) _).trans
    split
    · rename_i hdis
      rw [Bool.or_eq_true, decide_eq_true_eq, decide_eq_true_eq] at hdis
      exact memcpy_run h hm fun i hi j hj => by omega
    · split
      · rename_i hlt
        exact (copyForward_yields h hm (fun i j _ _ => by omega) (A := fun _ _ => True)
          fun _ _ => trivial).run
      · rename_i hlt
        exact (copyBackward_yields h hm (fun i j _ _ => by omega) (A := fun _ _ => True)
          fun _ _ => trivial).run

theorem memmove_correct (m : Mem) (dest src count : Nat) (hd : dest + count ≤ 0xffffffffffffffff)
    (hs : src + count ≤ 0xffffffffffffffff) (hsrc : Mapped m src count)
    (hdest : Mapped m dest count) :
    ∃ m', (memmove dest src count).run m = .ok dest m' ∧ Moved m m' dest src count ∧
      DelegatesApart dest src count := by
  obtain ⟨xs, hxs, rfl⟩ := hsrc.holds
  have hrun := memmove_run hxs hdest (Nat.lt_succ_of_le hd) (Nat.lt_succ_of_le hs)
  have hnew := holds_write m dest xs hdest
  refine ⟨write m dest xs, hrun, ⟨fun i hi => ?_, fun p hp => ?_⟩, delegates_apart dest src _⟩
  · rw [hnew i hi, hxs i hi]
  · exact write_outside m dest xs p hp

def lettersMem : Mem := image 1 [97, 98, 99, 100, 101, 102, 103] Nat.one_pos (by decide)

theorem memmove_correct_example : ∃ m', (memmove 3 1 3).run lettersMem = .ok 3 m' ∧
    Moved lettersMem m' 3 1 3 ∧ DelegatesApart 3 1 3 :=
  memmove_correct lettersMem 3 1 3 (by decide) (by decide) (by decide) (by decide)

end ZligcString
