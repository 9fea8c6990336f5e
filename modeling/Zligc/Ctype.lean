import Zligc.Zig

/-!
# The functions of ctype.zig and the macros of ctype.h

A C program gets the macro of ctype.h where it writes a call, and the exported
function where it takes an address. Both compare unsigned differences, but the
function narrows its argument to an unsigned one with a checked cast.
-/
namespace CtypeHeader

/-- A comparison in C. -/
def truth (p : Prop) [Decidable p] : Int32 := if p then 1 else 0

/-- `((unsigned)(a)-lo) < count` -/
def within (lo count : UInt32) (a : Int32) : Int32 := truth (a.toUInt32 - lo < count)

def isalpha (a : Int32) : Int32 := truth ((a.toUInt32 ||| 32) - 'a'.val < 26)

def isdigit (a : Int32) : Int32 := within '0'.val 10 a

def islower (a : Int32) : Int32 := within 'a'.val 26 a

def isupper (a : Int32) : Int32 := within 'A'.val 26 a

def isprint (a : Int32) : Int32 := within 0x20 0x5f a

def isgraph (a : Int32) : Int32 := within 0x21 0x5e a

def isspace (_c : Int32) : Int32 :=
  truth (_c = ' '.val.toInt32 ∨ _c.toUInt32 - '\t'.val < 5)

end CtypeHeader

namespace Ctype

open Effect Zig

variable {σ : Type}

/-- `u.toInt` -/
def toInt (expr : Bool) : Int32 := if expr then 1 else 0

/-- `u.toInt(@intCast(c_uint, c) -% lo < count)` -/
def within (lo count : UInt32) (c : Int32) : Run σ Int32 := do
  return toInt ((← castUint c) - lo < count)

def isalpha (c : Int32) : Run σ Int32 := do
  return toInt (((← castUint c) ||| 32) - 'a'.val < 26)

def isdigit (c : Int32) : Run σ Int32 := within '0'.val 10 c

def isalnum (c : Int32) : Run σ Int32 := do
  return toInt (← (return (← isalpha c) != 0) <&&> (return (← isdigit c) != 0))

def isblank (c : Int32) : Run σ Int32 :=
  return toInt (c == ' '.val.toInt32 || c == '\t'.val.toInt32)

def iscntrl (c : Int32) : Run σ Int32 := do
  return toInt ((← castUint c) < 0x20 || c == 0x7f)

def isgraph (c : Int32) : Run σ Int32 := within 0x21 0x5e c

def islower (c : Int32) : Run σ Int32 := within 'a'.val 26 c

def isprint (c : Int32) : Run σ Int32 := within 0x20 0x5f c

def ispunct (c : Int32) : Run σ Int32 := do
  return toInt (← (return (← isgraph c) != 0) <&&> (return (← isalnum c) == 0))

def isspace (c : Int32) : Run σ Int32 := do
  return toInt (← (return c == ' '.val.toInt32) <||>
    (return decide ((← castUint c) - '\t'.val < 5)))

def isupper (c : Int32) : Run σ Int32 := within 'A'.val 26 c

def isxdigit (c : Int32) : Run σ Int32 := do
  return toInt (← (return (← isdigit c) != 0) <||>
    (return decide (((← castUint c) ||| 32) - 'a'.val < 6)))

def tolower (c : Int32) : Run σ Int32 := do
  return if (← isupper c) != 0 then c ||| 32 else c

def toupper (c : Int32) : Run σ Int32 := do
  return if (← islower c) != 0 then c &&& 0x5f else c

section Runs

variable {c : Int32} {x : Run σ Int32} {b : Bool} (s : σ)

/-- A test for non-zero reads back what `toInt` wrote. -/
theorem nonzero_run (hx : x.run s = .ok (toInt b) s) :
    (do return (← x) != 0 : Run σ Bool).run s = .ok b s := by
  rw [bind_ok hx]
  cases b <;> rfl

theorem toInt_run {y : Run σ Bool} (hy : y.run s = .ok b s) :
    (do return toInt (← y) : Run σ Int32).run s = .ok (toInt b) s :=
  bind_ok hy _

theorem zero_run (hx : x.run s = .ok (toInt b) s) :
    (do return (← x) == 0 : Run σ Bool).run s = .ok (!b) s := by
  rw [bind_ok hx]
  cases b <;> rfl

theorem within_run (lo count : UInt32) (h : 0 ≤ c.toInt) :
    (within lo count c).run s = .ok (toInt (c.toUInt32 - lo < count)) s := by
  simp [within, h]

theorem within_fault (lo count : UInt32) (h : ¬ 0 ≤ c.toInt) :
    (within lo count c).run s = .error .integerCast s :=
  bind_error (castUint_fault s h) _

theorem isalpha_run (h : 0 ≤ c.toInt) :
    (isalpha c).run s = .ok (toInt ((c.toUInt32 ||| 32) - 'a'.val < 26)) s := by
  simp [isalpha, h]

theorem isalnum_run (h : 0 ≤ c.toInt) : (isalnum c).run s =
    .ok (toInt (decide ((c.toUInt32 ||| 32) - 'a'.val < 26) &&
      decide (c.toUInt32 - '0'.val < 10))) s :=
  toInt_run s (andM_ok (nonzero_run s (isalpha_run s h)) (nonzero_run s (within_run s _ _ h)))

theorem isblank_run (c : Int32) : (isblank c).run s =
    .ok (toInt (c == ' '.val.toInt32 || c == '\t'.val.toInt32)) s := rfl

theorem iscntrl_run (h : 0 ≤ c.toInt) : (iscntrl c).run s =
    .ok (toInt (decide (c.toUInt32 < 0x20) || c == 0x7f)) s := by
  simp [iscntrl, h]

theorem ispunct_run (h : 0 ≤ c.toInt) : (ispunct c).run s =
    .ok (toInt (decide (c.toUInt32 - 0x21 < 0x5e) &&
      !(decide ((c.toUInt32 ||| 32) - 'a'.val < 26) && decide (c.toUInt32 - '0'.val < 10)))) s :=
  toInt_run s (andM_ok (nonzero_run s (within_run s _ _ h)) (zero_run s (isalnum_run s h)))

theorem isspace_run (h : 0 ≤ c.toInt) : (isspace c).run s =
    .ok (toInt (c == ' '.val.toInt32 || decide (c.toUInt32 - '\t'.val < 5))) s :=
  toInt_run s (orM_ok (EStateM.run_pure _ _) (bind_ok (castUint_run s h) _))

theorem isxdigit_run (h : 0 ≤ c.toInt) : (isxdigit c).run s =
    .ok (toInt (decide (c.toUInt32 - '0'.val < 10) ||
      decide ((c.toUInt32 ||| 32) - 'a'.val < 6))) s :=
  toInt_run s (orM_ok (nonzero_run s (within_run s _ _ h)) (bind_ok (castUint_run s h) _))

theorem tolower_run (h : 0 ≤ c.toInt) : (tolower c).run s =
    .ok (if c.toUInt32 - 'A'.val < 26 then c ||| 32 else c) s := by
  rw [tolower, isupper, bind_ok (within_run s _ _ h)]
  simp [toInt]

theorem toupper_run (h : 0 ≤ c.toInt) : (toupper c).run s =
    .ok (if c.toUInt32 - 'a'.val < 26 then c &&& 0x5f else c) s := by
  rw [toupper, islower, bind_ok (within_run s _ _ h)]
  simp [toInt]

end Runs

open CtypeHeader (truth)

theorem toInt_decide (p : Prop) [Decidable p] : toInt (decide p) = truth p := by
  unfold toInt truth
  simp only [decide_eq_true_eq]

/-- A wrapping difference is small exactly in the range that starts at its subtrahend. -/
theorem sub_lt_iff {x lo count : UInt32} (hfit : lo.toNat + count.toNat ≤ 0x100000000) :
    x - lo < count ↔ lo.toNat ≤ x.toNat ∧ x.toNat < lo.toNat + count.toNat := by
  have hx := x.toNat_lt
  have hlo := lo.toNat_lt
  rw [UInt32.lt_iff_toNat_lt, UInt32.toNat_sub]
  omega

/-- The same for a character, with the first and the last one of the range. -/
theorem within_iff {c : Int32} (h : 0 ≤ c.toInt) {lo count : UInt32} {a b : Int}
    (hlo : lo.toNat = a) (hhi : lo.toNat + count.toNat = b + 1) (hfit : b < 0x100000000) :
    c.toUInt32 - lo < count ↔ a ≤ c.toInt ∧ c.toInt ≤ b := by
  have hnat := toUInt32_toNat h
  rw [sub_lt_iff (by omega)]
  omega

/-- The exported functions that ctype.h also has as macros. -/
def shadowed : List ((Int32 → Run σ Int32) × (Int32 → Int32)) :=
  [(isalpha, CtypeHeader.isalpha), (isdigit, CtypeHeader.isdigit),
    (islower, CtypeHeader.islower), (isupper, CtypeHeader.isupper),
    (isprint, CtypeHeader.isprint), (isgraph, CtypeHeader.isgraph),
    (isspace, CtypeHeader.isspace)]

def exported : List (Int32 → Run σ Int32) :=
  [isalnum, isalpha, isblank, iscntrl, isdigit, isgraph, islower, isprint, ispunct, isspace,
    isupper, isxdigit, tolower, toupper]

/-- An ASCII letter. -/
def Letter (c : Int32) : Prop :=
  (65 ≤ c.toInt ∧ c.toInt ≤ 90) ∨ (97 ≤ c.toInt ∧ c.toInt ≤ 122)

/-- On `c` the exported functions agree with the macros, no check fails, and what is not a letter
has no other case. -/
structure Agrees (s : σ) (c : Int32) : Prop where
  macros : ∀ f ∈ (shadowed : List ((Int32 → Run σ Int32) × _)),
    ∃ r, (f.1 c).run s = .ok r s ∧ (r ≠ 0 ↔ f.2 c ≠ 0)
  checks : ∀ f ∈ (exported : List (Int32 → Run σ Int32)), ∃ r, (f c).run s = .ok r s
  letters : ¬ Letter c → (tolower c).run s = .ok c s ∧ (toupper c).run s = .ok c s

section Agreement

variable {c : Int32} (s : σ)

theorem macro_iff {f : Int32 → Run σ Int32} {p : Prop} [Decidable p]
    (hrun : (f c).run s = .ok (toInt (decide p)) s) :
    ∃ r, (f c).run s = .ok r s ∧ (r ≠ 0 ↔ truth p ≠ 0) :=
  ⟨_, hrun, by rw [toInt_decide]⟩

theorem isspace_agrees (h : 0 ≤ c.toInt) :
    ∃ r, (isspace c).run s = .ok r s ∧ (r ≠ 0 ↔ CtypeHeader.isspace c ≠ 0) := by
  apply macro_iff s
  rw [isspace_run s h, Bool.decide_or]
  rfl

theorem shadowed_agree (h : 0 ≤ c.toInt) : ∀ f ∈ (shadowed : List ((Int32 → Run σ Int32) × _)),
    ∃ r, (f.1 c).run s = .ok r s ∧ (r ≠ 0 ↔ f.2 c ≠ 0) := by
  simp only [shadowed, List.forall_mem_cons]
  exact ⟨macro_iff s (isalpha_run s h), macro_iff s (within_run s _ _ h),
    macro_iff s (within_run s _ _ h), macro_iff s (within_run s _ _ h),
    macro_iff s (within_run s _ _ h), macro_iff s (within_run s _ _ h), isspace_agrees s h, nofun⟩

theorem exported_total (h : 0 ≤ c.toInt) : ∀ f ∈ (exported : List (Int32 → Run σ Int32)),
    ∃ r, (f c).run s = .ok r s := by
  simp only [exported, List.forall_mem_cons]
  exact ⟨⟨_, isalnum_run s h⟩, ⟨_, isalpha_run s h⟩, ⟨_, isblank_run s c⟩, ⟨_, iscntrl_run s h⟩,
    ⟨_, within_run s _ _ h⟩, ⟨_, within_run s _ _ h⟩, ⟨_, within_run s _ _ h⟩,
    ⟨_, within_run s _ _ h⟩, ⟨_, ispunct_run s h⟩, ⟨_, isspace_run s h⟩, ⟨_, within_run s _ _ h⟩,
    ⟨_, isxdigit_run s h⟩, ⟨_, tolower_run s h⟩, ⟨_, toupper_run s h⟩, nofun⟩

/-- On a negative character every exported function but isblank hits the check of its cast. -/
theorem negative_faults (h : ¬ 0 ≤ c.toInt) : ∀ f ∈ ([isalnum, isalpha, iscntrl, isdigit, isgraph,
    islower, isprint, ispunct, isspace, isupper, isxdigit, tolower, toupper] :
      List (Int32 → Run σ Int32)), (f c).run s = .error .integerCast s := by
  have hwithin : ∀ lo count, (within lo count c).run s = .error .integerCast s :=
    fun lo count => within_fault s lo count h
  have halpha : (isalpha c).run s = .error .integerCast s := bind_error (castUint_fault s h) _
  have hspace : c ≠ 32 := by
    rintro rfl
    exact h (by decide)
  simp only [List.forall_mem_cons]
  refine ⟨?_, halpha, bind_error (castUint_fault s h) _, hwithin _ _, hwithin _ _, hwithin _ _,
    hwithin _ _, ?_, ?_, hwithin _ _, ?_, bind_error (hwithin _ _) _, bind_error (hwithin _ _) _,
    nofun⟩
  · exact bind_error (andM_error (bind_error halpha _) _) _
  · exact bind_error (andM_error (bind_error (hwithin _ _) _) _) _
  · simp [isspace, hspace, castUint_fault s h]
  · exact bind_error (orM_error (bind_error (hwithin _ _) _) _) _

theorem case_kept (h : 0 ≤ c.toInt) (hc : ¬ Letter c) :
    (tolower c).run s = .ok c s ∧ (toupper c).run s = .ok c s := by
  have hupper : c.toUInt32 - 'A'.val < 26 ↔ 65 ≤ c.toInt ∧ c.toInt ≤ 90 :=
    within_iff h rfl rfl (by decide)
  have hlower : c.toUInt32 - 'a'.val < 26 ↔ 97 ≤ c.toInt ∧ c.toInt ≤ 122 :=
    within_iff h rfl rfl (by decide)
  rw [tolower_run s h, toupper_run s h, if_neg fun hin => hc (Or.inl (hupper.mp hin)),
    if_neg fun hin => hc (Or.inr (hlower.mp hin))]
  exact ⟨rfl, rfl⟩

end Agreement

/-- The exported functions do what they promise exactly for the characters that are not negative. -/
theorem agrees_iff (s : σ) (c : Int32) : Agrees s c ↔ 0 ≤ c.toInt := by
  constructor
  · intro h
    by_contra hneg
    obtain ⟨r, hrun⟩ := h.checks isdigit (by simp [exported])
    rw [negative_faults s hneg isdigit (by simp)] at hrun
    cases hrun
  · intro h
    exact ⟨shadowed_agree s h, exported_total s h, case_kept s h⟩

/-- The macro isalpha is 0 on EOF, and the function isalpha hits a check. -/
theorem eof_disagrees : CtypeHeader.isalpha (-1) = 0 ∧
    fault? ((isalpha (-1) : Run Unit Int32).run ()) = some .integerCast ∧ ¬ Agrees () (-1) := by
  refine ⟨by decide, by decide, fun h => ?_⟩
  obtain ⟨r, hrun, _⟩ := h.macros (isalpha, CtypeHeader.isalpha) (by simp [shadowed])
  cases hrun

end Ctype
