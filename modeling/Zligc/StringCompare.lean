import Zligc.StringCopy
import Zligc.LexOrder

/-!
# The order behind the comparison functions

memcmp and strcmp follow two arrays or strings to the place where they part and
report the lexicographic order of unsigned bytes. strncmp follows the strings
cut to its bound in the same way, but the `else` of its loop answers 0 whenever
one of them ends.
-/
namespace ZligcString

open Effect CellMemory Zig LexOrder

/-- The `c_int` of a comparison. -/
def outcome : Ordering → Int32
  | .lt => -1
  | .eq => 0
  | .gt => 1

theorem outcome_swap (o : Ordering) : outcome o.swap = -outcome o := by
  cases o <;> decide

theorem outcome_eq_zero {o : Ordering} : outcome o = 0 ↔ o = .eq := by
  cases o <;> decide

theorem outcome_nonpos {o : Ordering} : outcome o ≤ 0 ↔ o ≠ .gt := by
  cases o <;> decide

section Comparison

variable {σ : Type} [HasMem σ] [Watched σ] {A : Nat → Nat → Prop}
  {m : Mem} {lhs rhs : Nat} {p xs ys s t : List UInt8}

/-- Two different bytes are ordered one way or the other. -/
theorem bytes_part {x y : UInt8} (h : x ≠ y) :
    (y < x ∧ outcome (threeWay x y) = 1) ∨ (¬ y < x ∧ x < y ∧ outcome (threeWay x y) = -1) := by
  by_cases hlt : x < y
  · right
    have hn : ¬ y < x := fun hgt => UInt8.lt_irrefl _ (UInt8.lt_trans hlt hgt)
    exact ⟨hn, hlt, by rw [threeWay_eq_lt.mpr hlt]; rfl⟩
  · left
    have hgt : y < x := UInt8.lt_of_le_of_ne (UInt8.not_lt.mp hlt) (fun he => h he.symm)
    exact ⟨hgt, by rw [threeWay_eq_gt.mpr hgt]; rfl⟩

/-- memcmp compares the first `count` bytes, whatever their values. -/
theorem memcmp_run {count : Nat} (hx : Holds m lhs xs) (hy : Holds m rhs ys)
    (hxn : count ≤ xs.length) (hyn : count ≤ ys.length) :
    (memcmp lhs rhs count).run m = .ok (outcome (threeWay (xs.take count) (ys.take count))) m := by
  obtain ⟨p, s, t, hs, ht, hpart⟩ := split_common (xs.take count) (ys.take count)
  have hxl : p.length + s.length = count := by
    rw [← List.length_append, ← hs, List.length_take]; omega
  have hyl : p.length + t.length = count := by
    rw [← List.length_append, ← ht, List.length_take]; omega
  have hxc : Holds m lhs (p ++ s) := hs ▸ hx.take count
  have hyc : Holds m rhs (p ++ t) := ht ▸ hy.take count
  rw [hs, ht, threeWay_append]
  have hb := hx.mapped.length_lt (by decide)
  refine loop_result (fun i => i) (fun _ => m) rfl rfl (k := p.length) (by omega) ?_ ?_
  · intro i hi
    have hadd : i + 1 < 0x10000000000000000 := by omega
    have hlt : i < count := by omega
    simp [hxc.left.cell hi, hyc.left.cell hi, hadd, hlt]
  · cases s with
    | nil =>
      have hnil : t = [] := List.length_eq_zero_iff.mp (by simp at hxl; omega)
      have hge : ¬ p.length < count := by simp at hxl; omega
      subst hnil
      simp [hge, threeWay, outcome]
    | cons x s =>
      cases t with
      | nil => simp at hxl hyl; omega
      | cons y t =>
        have hxy : x ≠ y := hpart x y rfl rfl
        have hlt : p.length < count := by simp at hxl; omega
        rw [threeWay_cons_cons hxy]
        rcases bytes_part hxy with ⟨hgt, ho⟩ | ⟨hn, hl, ho⟩
        · simp [hlt, hxc.middle, hyc.middle, hgt, ho]
        · simp [hlt, hxc.middle, hyc.middle, hn, hl, ho]

/-- How the loop of strcmp leaves at the place `n` where two strings part. -/
def parting (n : Nat) : List UInt8 → List UInt8 → Exit Int32 Nat
  | x :: _, y :: _ => .returned (outcome (threeWay x y))
  | _, _ => .fell n

theorem strcmp_yields (hl : StringAt m lhs s) (hr : StringAt m rhs t)
    (hlA : ∀ i, i ≤ s.length → A lhs i) (hrA : ∀ i, i ≤ t.length → A rhs i) :
    Yields A m (strcmp lhs rhs : Run σ Int32) (outcome (threeWay s t)) m := by
  obtain ⟨p, s', t', rfl, rfl, hpart⟩ := split_common s t
  have hb := hl.bounds
  have hl0 := hl.nonzero
  have hr0 := hr.nonzero
  have hx := hl.parted
  have hy := hr.parted
  simp only [List.length_append] at hb hlA hrA
  simp only [List.mem_append, not_or] at hl0 hr0
  have hxA := hlA p.length (by omega)
  have hyA := hrA p.length (by omega)
  rw [threeWay_append]
  apply Yields.bind (a := parting p.length s' t') (n := m)
  · apply yields_while (fun i => i) (fun _ => m) rfl rfl (k := p.length) (by omega)
    · intro i hi u hu
      have hadd : i + 1 < 0x10000000000000000 := by omega
      have h0 : p[i] ≠ 0 := fun h0 => hl0.1 (h0 ▸ List.getElem_mem hi)
      simp [hu, hl.bytes.left.left.cell hi, hr.bytes.left.left.cell hi, hadd, h0,
        hlA i (by omega), hrA i (by omega)]
    · intro u hu
      cases s' with
      | nil => simp_all [parting]
      | cons x s' =>
        have hx0 : x ≠ 0 := fun h0 => hl0.2 (by simp [h0])
        rw [List.headD_cons] at hx
        cases t' with
        | nil => simp_all [parting]
        | cons y t' =>
          have hy0 : y ≠ 0 := fun h0 => hr0.2 (by simp [h0])
          rw [List.headD_cons] at hy
          rcases bytes_part (hpart x y rfl rfl) with ⟨hgt, ho⟩ | ⟨hng, hlt, ho⟩
          · simp [hu, hx, hy, hxA, hyA, hx0, hy0, hgt, ho, parting]
          · simp [hu, hx, hy, hxA, hyA, hx0, hy0, hng, hlt, ho, parting]
  · intro u hu
    cases s' with
    | nil =>
      rw [List.headD_nil] at hx
      cases t' with
      | nil => simp_all [parting, threeWay, outcome]
      | cons y t' =>
        have hy0 : y ≠ 0 := fun h0 => hr0.2 (by simp [h0])
        simp [hu, hx, hy, hxA, hyA, hy0, threeWay_nil_cons, outcome, parting]
    | cons x s' =>
      have hx0 : x ≠ 0 := fun h0 => hl0.2 (by simp [h0])
      rw [List.headD_cons] at hx
      cases t' with
      | nil =>
        rw [List.headD_nil] at hy
        simp [hu, hx, hy, hxA, hyA, hx0, threeWay_cons_nil, outcome, parting]
      | cons y t' => simp [hu, threeWay_cons_cons (hpart x y rfl rfl), parting]

theorem strcmp_run (hl : StringAt m lhs s) (hr : StringAt m rhs t) :
    (strcmp lhs rhs).run m = .ok (outcome (threeWay s t)) m :=
  (strcmp_yields hl hr (A := fun _ _ => True) (fun _ _ => trivial) fun _ _ => trivial).run

/-- One round of the loop of strncmp. -/
def strncmpRound {σ : Type} [HasMem σ] (lhs rhs count i : Nat) :
    Run σ (Turn Nat (Exit Int32 Nat)) := do
  if ← (return (← load lhs i) != 0) <&&> (return (← load rhs i) != 0) <&&>
      (return decide (i < count)) then
    if (← load lhs i) > (← load rhs i) then
      return .done (.returned 1)
    else if (← load lhs i) < (← load rhs i) then
      return .done (.returned (-1))
    return .next (← add i 1)
  else
    return .done (.returned 0)

/-- strncmp is its loop, and what the loop returns is returned. -/
theorem strncmp_loop (σ : Type) [HasMem σ] (lhs rhs count : Nat) :
    ∃ f : Exit Int32 Nat → Run σ Int32,
      strncmp lhs rhs count = while_ 0 (strncmpRound lhs rhs count) >>= f ∧
        ∀ v, f (.returned v) = pure v :=
  ⟨_, rfl, fun _ => rfl⟩

section Rounds

variable {i count : Nat} {x y : UInt8}

theorem strncmpRound_passes (hx : m.cell (lhs + i) = some x) (hy : m.cell (rhs + i) = some x)
    (h0 : x ≠ 0) (hlt : i < count) (hadd : i + 1 < 0x10000000000000000) :
    (strncmpRound lhs rhs count i).run m = .ok (.next (i + 1)) m := by
  simp [strncmpRound, hx, hy, h0, hlt, hadd]

theorem strncmpRound_ends (hx : m.cell (lhs + i) = some x) (hy : m.cell (rhs + i) = some y)
    (hend : x = 0 ∨ y = 0 ∨ ¬ i < count) :
    (strncmpRound lhs rhs count i).run m = .ok (.done (.returned 0)) m := by
  by_cases hx0 : x = 0
  · simp [strncmpRound, hx, hx0]
  · by_cases hy0 : y = 0
    · simp [strncmpRound, hx, hy, hx0, hy0]
    · simp [strncmpRound, hx, hy, hx0, hy0, (hend.resolve_left hx0).resolve_left hy0]

theorem strncmpRound_parts (hx : m.cell (lhs + i) = some x) (hy : m.cell (rhs + i) = some y)
    (hx0 : x ≠ 0) (hy0 : y ≠ 0) (hlt : i < count) (hne : x ≠ y) :
    (strncmpRound lhs rhs count i).run m =
      .ok (.done (.returned (outcome (threeWay x y)))) m := by
  rcases bytes_part hne with ⟨hgt, ho⟩ | ⟨hng, hl, ho⟩
  · simp [strncmpRound, hx, hy, hx0, hy0, hlt, hgt, ho]
  · simp [strncmpRound, hx, hy, hx0, hy0, hlt, hng, hl, ho]

end Rounds

/-- strncmp answers 0 as soon as one of the two cut strings ends, and otherwise their order. -/
theorem strncmp_run (count : Nat) (hl : StringAt m lhs s) (hr : StringAt m rhs t) :
    (strncmp lhs rhs count).run m =
      .ok (if s.take count <+: t.take count ∨ t.take count <+: s.take count then 0
        else outcome (threeWay (s.take count) (t.take count))) m := by
  obtain ⟨p, s', t', hs, ht, hpart⟩ := split_common (s.take count) (t.take count)
  have hb := hl.bounds
  have hsl : p.length + s'.length = min count s.length := by
    rw [← List.length_append, ← hs, List.length_take]
  have htl : p.length + t'.length = min count t.length := by
    rw [← List.length_append, ← ht, List.length_take]
  have hlc : Holds m lhs (p ++ s') := hs ▸ hl.bytes.left.take count
  have hrc : Holds m rhs (p ++ t') := ht ▸ hr.bytes.left.take count
  have hl0 : 0 ∉ p ++ s' := fun h0 => hl.nonzero (List.mem_of_mem_take (hs ▸ h0))
  have hr0 : 0 ∉ p ++ t' := fun h0 => hr.nonzero (List.mem_of_mem_take (ht ▸ h0))
  simp only [List.mem_append, not_or] at hl0 hr0
  simp only [hs, ht, List.prefix_append_right_inj, threeWay_append]
  obtain ⟨f, hloop, hf⟩ := strncmp_loop Mem lhs rhs count
  rw [hloop]
  refine (bind_ok (loop_result (fun i => i) (fun _ => m) rfl rfl (k := p.length) (by omega)
    ?_ ?_) f).trans (by rw [hf]; rfl)
  · intro i hi
    have h0 : p[i] ≠ 0 := fun h0 => hl0.1 (h0 ▸ List.getElem_mem hi)
    exact strncmpRound_passes (hlc.left.cell hi) (hrc.left.cell hi) h0 (by omega) (by omega)
  · obtain ⟨x, hx, hx0⟩ := hl.read (i := p.length) (by omega)
    obtain ⟨y, hy, hy0⟩ := hr.read (i := p.length) (by omega)
    cases s' with
    | nil =>
      simp at hsl
      simpa using strncmpRound_ends hx hy (by rw [hx0]; omega)
    | cons c s' =>
      cases t' with
      | nil =>
        simp at htl
        simpa using strncmpRound_ends hx hy (by rw [hy0]; omega)
      | cons d t' =>
        have hcd : c ≠ d := hpart c d rfl rfl
        have hc0 : c ≠ 0 := fun h0 => hl0.2 (by simp [h0])
        have hd0 : d ≠ 0 := fun h0 => hr0.2 (by simp [h0])
        have hno : ¬ (c :: s' <+: d :: t' ∨ d :: t' <+: c :: s') := by
          simp [List.cons_prefix_cons, hcd, Ne.symm hcd]
        rw [if_neg hno, threeWay_cons_cons hcd]
        simp at hsl
        exact strncmpRound_parts hlc.middle hrc.middle hc0 hd0 (by omega) hcd

/-- The outcome of a comparison as the sign of the lexicographic order. -/
theorem outcome_sign (a b : List UInt8) :
    outcome (threeWay a b) = if a < b then -1 else if a = b then 0 else 1 := by
  unfold threeWay
  split
  · rfl
  · split <;> rfl

theorem zero_least (x : UInt8) (h : x ≠ 0) : 0 < x := by
  rw [UInt8.lt_iff_toNat_lt]
  have hne : x.toNat ≠ 0 := fun h0 => h (UInt8.toNat_inj.mp h0)
  exact Nat.pos_of_ne_zero hne

/-- memcmp over the shorter string and its terminator is strcmp. -/
theorem memcmp_strings (hl : StringAt m lhs s) (hr : StringAt m rhs t) :
    (memcmp lhs rhs (min s.length t.length + 1)).run m = (strcmp lhs rhs).run m := by
  have hle : ∀ xs : List UInt8, min s.length t.length ≤ xs.length →
      min s.length t.length + 1 ≤ (xs ++ [0]).length := by
    intro xs hxs
    rw [List.length_append, List.length_singleton]
    exact Nat.succ_le_succ hxs
  rw [strcmp_run hl hr, memcmp_run hl.bytes hr.bytes (hle s (Nat.min_le_left _ _))
    (hle t (Nat.min_le_right _ _)),
    threeWay_closed zero_least hl.nonzero hr.nonzero]

end Comparison

/-- The comparison functions realise one order: the lexicographic order of unsigned bytes. -/
theorem comparison_order {m : Mem} {pa pb pc : Nat} {a b c : List UInt8} (ha : StringAt m pa a)
    (hb : StringAt m pb b) (hc : StringAt m pc c) :
    (strcmp pa pb).run m = .ok (if a < b then -1 else if a = b then 0 else 1) m ∧
    ((strcmp pa pb).run m = .ok 0 m ↔ a = b) ∧
    (∀ v, (strcmp pa pb).run m = .ok v m → (strcmp pb pa).run m = .ok (-v) m) ∧
    (∀ u v w, (strcmp pa pb).run m = .ok u m → (strcmp pb pc).run m = .ok v m →
      (strcmp pa pc).run m = .ok w m → u ≤ 0 → v ≤ 0 → w ≤ 0) ∧
    (strcoll pa pb).run m = (strcmp pa pb).run m ∧
    (memcmp pa pb (min a.length b.length + 1)).run m = (strcmp pa pb).run m ∧
    ∀ x y xs ys n, Holds m x xs → Holds m y ys → n ≤ xs.length → n ≤ ys.length →
      (memcmp x y n).run m =
        .ok (if xs.take n < ys.take n then -1 else if xs.take n = ys.take n then 0 else 1) m := by
  refine ⟨?_, ?_, ?_, ?_, rfl, memcmp_strings ha hb, ?_⟩
  · rw [strcmp_run ha hb, outcome_sign]
  · rw [strcmp_run ha hb, EStateM.Result.ok.injEq, outcome_eq_zero, threeWay_eq_eq]
    simp
  · intro v hv
    rw [strcmp_run ha hb, EStateM.Result.ok.injEq] at hv
    rw [strcmp_run hb ha, threeWay_swap, outcome_swap, hv.1]
  · intro u v w hu hv hw hu0 hv0
    rw [strcmp_run ha hb, EStateM.Result.ok.injEq] at hu
    rw [strcmp_run hb hc, EStateM.Result.ok.injEq] at hv
    rw [strcmp_run ha hc, EStateM.Result.ok.injEq] at hw
    rw [← hu.1, outcome_nonpos, threeWay_ne_gt] at hu0
    rw [← hv.1, outcome_nonpos, threeWay_ne_gt] at hv0
    rw [← hw.1, outcome_nonpos, threeWay_ne_gt]
    exact Std.le_trans hu0 hv0
  · intro x y xs ys n hx hy hxn hyn
    rw [memcmp_run hx hy hxn hyn, outcome_sign]

/-- "a" at 1, "ab" at 3 and a byte above 127 at 6. -/
def orderedMem : Mem := image 1 [97, 0, 97, 98, 0, 200, 0] Nat.one_pos (by decide)

theorem comparison_order_example :
    (strcmp 1 3).run orderedMem =
        .ok (if [97] < [97, 98] then -1 else if [97] = [97, 98] then 0 else 1) orderedMem ∧
    ((strcmp 1 3).run orderedMem = .ok 0 orderedMem ↔ ([97] : List UInt8) = [97, 98]) ∧
    (∀ v, (strcmp 1 3).run orderedMem = .ok v orderedMem →
      (strcmp 3 1).run orderedMem = .ok (-v) orderedMem) ∧
    (∀ u v w, (strcmp 1 3).run orderedMem = .ok u orderedMem →
      (strcmp 3 6).run orderedMem = .ok v orderedMem →
      (strcmp 1 6).run orderedMem = .ok w orderedMem → u ≤ 0 → v ≤ 0 → w ≤ 0) ∧
    (strcoll 1 3).run orderedMem = (strcmp 1 3).run orderedMem ∧
    (memcmp 1 3 (min [97].length [97, 98].length + 1)).run orderedMem =
      (strcmp 1 3).run orderedMem ∧
    ∀ x y xs ys n, Holds orderedMem x xs → Holds orderedMem y ys → n ≤ xs.length →
      n ≤ ys.length →
      (memcmp x y n).run orderedMem =
        .ok (if xs.take n < ys.take n then -1 else if xs.take n = ys.take n then 0 else 1)
          orderedMem :=
  comparison_order (a := [97]) (b := [97, 98]) (c := [200]) ⟨by decide, by decide⟩
    ⟨by decide, by decide⟩ ⟨by decide, by decide⟩

/-- `s` is an initial part of `t` and shorter than it. -/
def ProperPrefix (s t : List UInt8) : Prop := s <+: t ∧ s ≠ t

/-- strncmp compares the strings cut to `count` bytes as strcmp compares them. -/
structure ComparesCut (m : Mem) (lhs rhs count : Nat) (l r : List UInt8) : Prop where
  agrees : ∀ (m' : Mem) (lhs' rhs' : Nat), StringAt m' lhs' (l.take count) →
    StringAt m' rhs' (r.take count) →
    value? ((strncmp lhs rhs count).run m) = value? ((strcmp lhs' rhs').run m')
  zero : value? ((strncmp lhs rhs count).run m) = some 0 ↔ l.take count = r.take count
  uncut : max l.length r.length < count →
    value? ((strncmp lhs rhs count).run m) = value? ((strcmp lhs rhs).run m)

/-- It does so exactly when neither cut string is a proper prefix of the other. -/
theorem strncmp_compares_iff {m : Mem} {lhs rhs count : Nat} {l r : List UInt8}
    (hl : StringAt m lhs l) (hr : StringAt m rhs r) :
    ComparesCut m lhs rhs count l r ↔
      ¬ ProperPrefix (l.take count) (r.take count) ∧
        ¬ ProperPrefix (r.take count) (l.take count) := by
  have hrun := strncmp_run count hl hr
  constructor
  · intro h
    constructor
    · rintro ⟨hpre, hne⟩
      rw [if_pos (Or.inl hpre)] at hrun
      exact hne (h.zero.mp (by rw [hrun]; rfl))
    · rintro ⟨hpre, hne⟩
      rw [if_pos (Or.inr hpre)] at hrun
      exact hne (h.zero.mp (by rw [hrun]; rfl)).symm
  · rintro ⟨hlr, hrl⟩
    have hval : (strncmp lhs rhs count).run m =
        .ok (outcome (threeWay (l.take count) (r.take count))) m := by
      rw [hrun]
      split
      · rename_i hpre
        have heq : l.take count = r.take count := by
          by_contra hne
          rcases hpre with hp | hp
          · exact hlr ⟨hp, hne⟩
          · exact hrl ⟨hp, fun he => hne he.symm⟩
        rw [threeWay_eq_eq.mpr heq]
        rfl
      · rfl
    constructor
    · intro m' lhs' rhs' hl' hr'
      rw [hval, strcmp_run hl' hr']
      rfl
    · rw [hval, value?_ok, Option.some.injEq, outcome_eq_zero, threeWay_eq_eq]
    · intro hlong
      rw [hval, strcmp_run hl hr, List.take_of_length_le (by omega),
        List.take_of_length_le (by omega)]

theorem strncmp_compares_iff_example :
    ComparesCut orderedMem 3 6 1 [97, 98] [200] ↔
      ¬ ProperPrefix ([97, 98].take 1) ([200].take 1) ∧
        ¬ ProperPrefix ([200].take 1) ([97, 98].take 1) :=
  strncmp_compares_iff ⟨by decide, by decide⟩ ⟨by decide, by decide⟩

/-- "a" is a proper prefix of "ab", and strncmp with bound 5 calls them equal. -/
theorem strncmp_proper_prefix :
    value? ((strncmp 1 3 5).run orderedMem) = some 0 ∧
      ¬ ComparesCut orderedMem 1 3 5 [97] [97, 98] := by
  have hzero : value? ((strncmp 1 3 5).run orderedMem) = some 0 := by decide
  exact ⟨hzero, fun h => absurd (h.zero.mp hzero) (by decide)⟩

end ZligcString
