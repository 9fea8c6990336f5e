import Zligc.Ctype

/-!
# The character classes of ctype.zig

Every class is a union of ranges of codes below 128. The ranges form the lattice of the C locale
but for alnum: its test asks for a letter that is a digit, and accepts nothing.
-/
namespace Ctype

open Effect Zig

variable {σ : Type}

inductive Class where
  | alnum | alpha | blank | cntrl | digit | graph | lower | print | punct | space | upper | xdigit
  deriving DecidableEq, Repr

/-- The exported test of a class. -/
def Class.test : Class → Int32 → Run σ Int32
  | .alnum => isalnum
  | .alpha => isalpha
  | .blank => isblank
  | .cntrl => iscntrl
  | .digit => isdigit
  | .graph => isgraph
  | .lower => islower
  | .print => isprint
  | .punct => ispunct
  | .space => isspace
  | .upper => isupper
  | .xdigit => isxdigit

/-- The codes that the test of a class accepts. -/
def Class.Accepts : Class → Int → Prop
  | .alnum, _ => False
  | .alpha, n => (65 ≤ n ∧ n ≤ 90) ∨ (97 ≤ n ∧ n ≤ 122)
  | .blank, n => n = 32 ∨ n = 9
  | .cntrl, n => n < 32 ∨ n = 127
  | .digit, n => 48 ≤ n ∧ n ≤ 57
  | .graph, n => 33 ≤ n ∧ n ≤ 126
  | .lower, n => 97 ≤ n ∧ n ≤ 122
  | .print, n => 32 ≤ n ∧ n ≤ 126
  | .punct, n => 33 ≤ n ∧ n ≤ 126
  | .space, n => n = 32 ∨ (9 ≤ n ∧ n ≤ 13)
  | .upper, n => 65 ≤ n ∧ n ≤ 90
  | .xdigit, n => (48 ≤ n ∧ n ≤ 57) ∨ (65 ≤ n ∧ n ≤ 70) ∨ (97 ≤ n ∧ n ≤ 102)

/-- The test of the class returns a value other than 0. -/
def Holds (s : σ) (k : Class) (c : Int32) : Prop := ∃ r, (k.test c).run s = .ok r s ∧ r ≠ 0

/-- The laws of the classes that do not depend on what alnum accepts. -/
structure Partition (s : σ) (c : Int32) : Prop where
  total : ∀ k : Class, ∃ r, (k.test c).run s = .ok r s
  alpha_digit : ¬ (Holds s .alpha c ∧ Holds s .digit c)
  graph : Holds s .graph c ↔
    (Holds s .alnum c ∧ ¬ Holds s .punct c) ∨ (¬ Holds s .alnum c ∧ Holds s .punct c)
  print : Holds s .print c ↔ c = 32 ∨ Holds s .graph c
  cntrl_print : ¬ (Holds s .cntrl c ∧ Holds s .print c)
  ascii : Holds s .cntrl c ∨ Holds s .print c ↔ c.toInt < 128
  blank : Holds s .blank c → Holds s .space c
  space_graph : ¬ (Holds s .space c ∧ Holds s .graph c)
  xdigit : Holds s .xdigit c ↔ Holds s .digit c ∨ (97 ≤ c.toInt ∧ c.toInt ≤ 102) ∨
    (65 ≤ c.toInt ∧ c.toInt ≤ 70)
  beyond : 128 ≤ c.toInt → ∀ k, ¬ Holds s k c

/-- All the laws of the classes. -/
structure Lattice (s : σ) (c : Int32) : Prop extends Partition s c where
  alnum : Holds s .alnum c ↔ Holds s .alpha c ∨ Holds s .digit c
  xdigit_alnum : Holds s .xdigit c → Holds s .alnum c

section Classes

variable {c : Int32} (s : σ)

theorem toInt_ne_zero (b : Bool) : toInt b ≠ 0 ↔ b = true := by
  cases b <;> decide

/-- Setting the bit 32 of a code maps the upper letters to the lower ones. -/
theorem lower_case_iff {x count : Nat} (hcount : count ≤ 26) :
    (97 ≤ x ||| 32 ∧ x ||| 32 < 97 + count) ↔
      (65 ≤ x ∧ x < 65 + count) ∨ (97 ≤ x ∧ x < 97 + count) := by
  have hlow : (x ||| 32) % 2 ^ 5 = x % 2 ^ 5 := by
    rw [Nat.or_mod_two_pow]
    exact Nat.or_zero _
  have hbit : (x ||| 32) / 2 ^ 5 % 2 = 1 := by
    rw [Nat.or_div_two_pow, Nat.or_mod_two_eq_one]
    exact Or.inr rfl
  have hhigh : (x ||| 32) / 2 ^ 6 = x / 2 ^ 6 := by
    rw [Nat.or_div_two_pow]
    exact Nat.or_zero _
  omega

theorem holds_of_run {k : Class} {b : Bool} (h : (k.test c).run s = .ok (toInt b) s) :
    Holds s k c ↔ b = true := by
  rw [← toInt_ne_zero]
  constructor
  · rintro ⟨r, hrun, hr⟩
    rwa [(EStateM.Result.ok.inj (h.symm.trans hrun)).1]
  · exact fun hb => ⟨_, h, hb⟩

theorem folded_iff (h : 0 ≤ c.toInt) {count : UInt32} {n : Nat} (hn : count.toNat = n)
    (hcount : n ≤ 26) : (c.toUInt32 ||| 32) - 'a'.val < count ↔
      (65 ≤ c.toInt ∧ c.toInt < 65 + n) ∨ (97 ≤ c.toInt ∧ c.toInt < 97 + n) := by
  have hnat := toUInt32_toNat h
  have hfold := lower_case_iff (x := c.toUInt32.toNat) hcount
  have hval : 'a'.val.toNat = 97 := rfl
  rw [sub_lt_iff (by omega), UInt32.toNat_or, hval, hn]
  show 97 ≤ c.toUInt32.toNat ||| 32 ∧ c.toUInt32.toNat ||| 32 < 97 + n ↔ _
  omega

theorem holds_within (h : 0 ≤ c.toInt) {k : Class} {lo count : UInt32} {a b : Int}
    (hk : (k.test c : Run σ Int32) = within lo count c) (hlo : lo.toNat = a)
    (hhi : lo.toNat + count.toNat = b + 1) (hfit : b < 0x100000000) :
    Holds s k c ↔ a ≤ c.toInt ∧ c.toInt ≤ b := by
  rw [holds_of_run s (hk ▸ within_run s lo count h), decide_eq_true_eq, within_iff h hlo hhi hfit]

theorem beq_iff (a : Int32) : (c == a) = true ↔ c.toInt = a.toInt := by
  rw [beq_iff_eq, Int32.toInt_inj]

/-- What the tests accept, test by test. -/
theorem holds_iff (h : 0 ≤ c.toInt) (k : Class) : Holds s k c ↔ k.Accepts c.toInt := by
  have hdigit : c.toUInt32 - '0'.val < 10 ↔ 48 ≤ c.toInt ∧ c.toInt ≤ 57 :=
    within_iff h rfl rfl (by decide)
  have hgraph : c.toUInt32 - 0x21 < 0x5e ↔ 33 ≤ c.toInt ∧ c.toInt ≤ 126 :=
    within_iff h rfl rfl (by decide)
  have hletter := folded_iff h (n := 26) (rfl : UInt32.toNat 26 = 26) (by decide)
  cases k with
  | digit => exact holds_within s h rfl rfl rfl (by decide)
  | graph => exact holds_within s h rfl rfl rfl (by decide)
  | lower => exact holds_within s h rfl rfl rfl (by decide)
  | print => exact holds_within s h rfl rfl rfl (by decide)
  | upper => exact holds_within s h rfl rfl rfl (by decide)
  | alpha =>
    rw [holds_of_run (k := .alpha) s (isalpha_run s h), decide_eq_true_eq, hletter, Class.Accepts]
    omega
  | alnum =>
    rw [holds_of_run (k := .alnum) s (isalnum_run s h), Bool.and_eq_true, decide_eq_true_eq,
      decide_eq_true_eq, hletter, hdigit, Class.Accepts, iff_false]
    omega
  | punct =>
    rw [holds_of_run (k := .punct) s (ispunct_run s h)]
    simp only [Bool.and_eq_true, Bool.not_eq_true', Bool.and_eq_false_iff, decide_eq_true_eq,
      decide_eq_false_iff_not, hgraph, hletter, hdigit, Class.Accepts]
    omega
  | blank =>
    rw [holds_of_run (k := .blank) s (isblank_run s c), Bool.or_eq_true, beq_iff, beq_iff]
    exact Iff.rfl
  | cntrl =>
    have hlow : c.toUInt32 < 0x20 ↔ c.toInt < 32 := by
      have hnat := toUInt32_toNat h
      rw [UInt32.lt_iff_toNat_lt]
      show c.toUInt32.toNat < 32 ↔ _
      omega
    rw [holds_of_run (k := .cntrl) s (iscntrl_run s h), Bool.or_eq_true, beq_iff,
      decide_eq_true_eq, hlow]
    exact Iff.rfl
  | space =>
    have hcontrol : c.toUInt32 - '\t'.val < 5 ↔ 9 ≤ c.toInt ∧ c.toInt ≤ 13 :=
      within_iff h rfl rfl (by decide)
    rw [holds_of_run (k := .space) s (isspace_run s h), Bool.or_eq_true, beq_iff,
      decide_eq_true_eq, hcontrol]
    exact Iff.rfl
  | xdigit =>
    have hhex := folded_iff h (n := 6) (rfl : UInt32.toNat 6 = 6) (by decide)
    rw [holds_of_run (k := .xdigit) s (isxdigit_run s h), Bool.or_eq_true, decide_eq_true_eq,
      decide_eq_true_eq, hdigit, hhex, Class.Accepts]
    omega

theorem total (h : 0 ≤ c.toInt) (k : Class) : ∃ r, (k.test c).run s = .ok r s := by
  have hall := exported_total s h
  cases k <;> exact hall _ (by simp [exported, Class.test])

theorem partition_holds (h : 0 ≤ c.toInt) : Partition s c := by
  have hspace : c = 32 ↔ c.toInt = 32 := Int32.toInt_inj.symm
  constructor
  case total => exact total s h
  case beyond =>
    intro hc k
    rw [holds_iff s h]
    cases k with
    | alnum => exact id
    | _ => simp only [Class.Accepts]; omega
  case graph =>
    -- nothing is in alnum, so everything in graph is in punct
    simp only [holds_iff s h, Class.Accepts, false_and, false_or, not_false_eq_true, true_and]
  all_goals
    simp only [holds_iff s h, Class.Accepts, hspace]
    omega

end Classes

/-- A letter or a digit. -/
def Alphanumeric (c : Int32) : Prop := Letter c ∨ (48 ≤ c.toInt ∧ c.toInt ≤ 57)

/-- Of the characters that are not negative, those which are neither letters nor digits satisfy all
laws. The others satisfy the laws that leave alnum open. -/
theorem lattice_iff {c : Int32} (h : 0 ≤ c.toInt) (s : σ) :
    (Lattice s c ↔ ¬ Alphanumeric c) ∧ Partition s c := by
  refine ⟨?_, partition_holds s h⟩
  unfold Alphanumeric Letter
  constructor
  · intro hlattice
    have halnum := hlattice.alnum
    simp only [holds_iff s h, Class.Accepts, false_iff] at halnum
    omega
  · intro hc
    refine { partition_holds s h with alnum := ?_, xdigit_alnum := ?_ }
    · simp only [holds_iff s h, Class.Accepts, false_iff]
      omega
    · simp only [holds_iff s h, Class.Accepts, imp_false]
      omega

theorem lattice_iff_example : (Lattice () 33 ↔ ¬ Alphanumeric 33) ∧ Partition () 33 :=
  lattice_iff (by decide) ()

/-- isalnum rejects the letter a. -/
theorem isalnum_letter :
    (isalpha 97).run () = .ok 1 () ∧ (isalnum 97).run () = .ok 0 () ∧ ¬ Lattice () 97 := by
  refine ⟨rfl, rfl, fun hlattice => ?_⟩
  obtain ⟨r, hrun, hr⟩ := hlattice.alnum.mpr (Or.inl ⟨1, rfl, by decide⟩)
  cases hrun
  exact hr rfl

end Ctype
