import Zligc.StdlibConvert

/-!
# Integer arithmetic in stdlib.zig

The absolute values negate an int and the divisions take a remainder that wants a positive
denominator. So labs and llabs are right for what is an int above the least one, and the
divisions for a positive denominator.
-/
namespace Stdlib

open Effect Zig

variable {σ α β : Type}

/-- `if (n < 0) -n else n` of a `c_int`. -/
def magnitude (n : Int) : Run σ Int :=
  if n < 0 then negate 0x80000000 n else pure n

def abs (n : Int32) : Run σ Int32 := Int32.ofInt <$> magnitude n.toInt

def labs (n : Int32) : Run σ Int64 := Int64.ofInt <$> magnitude n.toInt

def llabs (n : Int32) : Run σ Int64 := Int64.ofInt <$> magnitude n.toInt

structure DivType (T : Type) where
  quot : T
  rem : T
  deriving DecidableEq, Repr

def DivType.map (f : α → β) (d : DivType α) : DivType β := ⟨f d.quot, f d.rem⟩

abbrev div_t := DivType Int32
abbrev ldiv_t := DivType Int64
abbrev lldiv_t := DivType Int64

/-- The divisions on the signed type that ranges from `-limit` to `limit - 1`. -/
def divide (limit : Nat) (x y : Int) : Run σ (DivType Int) := do
  return { quot := ← divTrunc limit x y, rem := ← rem x y }

def div (x y : Int32) : Run σ div_t :=
  DivType.map Int32.ofInt <$> divide 0x80000000 x.toInt y.toInt

def ldiv (x y : Int64) : Run σ ldiv_t :=
  DivType.map Int64.ofInt <$> divide 0x8000000000000000 x.toInt y.toInt

def lldiv (x y : Int64) : Run σ lldiv_t :=
  DivType.map Int64.ofInt <$> divide 0x8000000000000000 x.toInt y.toInt

end Stdlib

namespace StdlibHeader

open Zig

variable {σ : Type}

/-- A C program passes the long that stdlib.h declares, and the function reads an int of it. -/
def labs (n : Int64) : Run σ Int64 := Stdlib.labs n.toInt32

def llabs (n : Int64) : Run σ Int64 := Stdlib.llabs n.toInt32

end StdlibHeader

namespace Stdlib

open Effect Zig

variable {σ α : Type}

/-- What C promises of a division: the quotient is rounded to zero, and the remainder has the sign
of what is divided. -/
structure Divides (x y : Int) (d : DivType Int) : Prop where
  whole : d.quot * y + d.rem = x
  less : d.rem.natAbs < y.natAbs
  sign : d.rem = 0 ∨ d.rem.sign = x.sign

/-- The division has a result, and it fits the type. -/
def Representable (limit : Nat) (x y : Int) : Prop :=
  ∃ d, Divides x y d ∧ Fits limit d.quot ∧ Fits limit d.rem

/-- The call returns the absolute value. -/
def ReturnsAbs (s : σ) (call : Run σ α) (toInt : α → Int) (n : Int) : Prop :=
  ∃ r, call.run s = .ok r s ∧ toInt r = n.natAbs

/-- The call returns the quotient and the remainder. -/
def ReturnsDivision (s : σ) (call : Run σ (DivType α)) (toInt : α → Int) (x y : Int) : Prop :=
  ∃ d, call.run s = .ok d s ∧ Divides x y (d.map toInt)

section Values

variable {n : Int} (s : σ)

theorem magnitude_run (h : -n < 0x80000000) : (magnitude n).run s = .ok (n.natAbs : Int) s := by
  unfold magnitude
  split
  · rw [negate_run s h, Int.ofNat_natAbs_of_nonpos (by omega)]
  · rw [Int.natAbs_of_nonneg (by omega)]
    rfl

theorem magnitude_fault (h : ¬ -n < 0x80000000) :
    (magnitude n).run s = .error .integerOverflow s := by
  rw [magnitude, if_pos (by omega)]
  exact negate_fault s h

theorem abs_returns (n : Int32) (h : Fits 0x80000000 n.toInt.natAbs) :
    ReturnsAbs s (abs n) Int32.toInt n.toInt := by
  have hneg : -n.toInt < 0x80000000 := by
    have hlt := h.2
    omega
  exact ⟨_, map_ok (magnitude_run s hneg) _, Int32.toInt_ofInt_of_le h.1 h.2⟩

/-- The function sees the low half of a long, which has the absolute value of the long only where
it is the long. -/
theorem narrowed_returns_iff (n : Int64) :
    ReturnsAbs s (Int64.ofInt <$> magnitude n.toInt32.toInt) Int64.toInt n.toInt ↔
      n.toInt.natAbs < 0x80000000 := by
  have hlo := n.toInt32.le_toInt
  have hhi := n.toInt32.toInt_lt
  constructor
  · rintro ⟨r, hrun, hr⟩
    by_cases hneg : -n.toInt32.toInt < 0x80000000
    · rw [map_ok (magnitude_run s hneg)] at hrun
      obtain ⟨rfl, _⟩ := EStateM.Result.ok.inj hrun
      rw [Int64.toInt_ofInt_of_le (by omega) (by omega)] at hr
      omega
    · rw [map_error (magnitude_fault s hneg)] at hrun
      cases hrun
  · intro h
    have hsame : n.toInt32.toInt = n.toInt := by
      rw [Int64.toInt_toInt32]
      exact Int.bmod_eq_of_le (by omega) (by omega)
    rw [hsame]
    exact ⟨_, map_ok (magnitude_run s (by omega)) _, Int64.toInt_ofInt_of_le (by omega) (by omega)⟩

end Values

section Divisions

variable {limit : Nat} {x y : Int} {d : DivType Int} (s : σ)

theorem divides_trunc (hy : y ≠ 0) (x : Int) : Divides x y ⟨x.tdiv y, x.tmod y⟩ := by
  constructor
  · exact Int.tdiv_mul_add_tmod x y
  · rw [Int.natAbs_tmod]
    exact Nat.mod_lt _ (by omega)
  · rw [← Int.sign_eq_zero_iff_zero, Int.sign_tmod]
    split
    · exact Or.inl rfl
    · exact Or.inr rfl

/-- A division has one quotient and one remainder. -/
theorem Divides.unique (h : Divides x y d) : d = ⟨x.tdiv y, x.tmod y⟩ := by
  obtain ⟨q, r⟩ := d
  obtain ⟨hwhole, hless, hsign⟩ := h
  have hy : y ≠ 0 := by
    rintro rfl
    exact absurd hless (Nat.not_lt_zero _)
  have heq : r + y * q = x := by rw [← hwhole, Int.add_comm, Int.mul_comm]
  have hlt : r.natAbs < y.natAbs := hless
  rcases Int.le_total 0 x with hx | hx
  · have hr : 0 ≤ r := by
      rcases hsign with rfl | hsign
      · exact Int.le_refl 0
      · exact Int.sign_nonneg_iff.mp (hsign ▸ Int.sign_nonneg_iff.mpr hx)
    obtain ⟨rfl, rfl⟩ := (Int.tdiv_tmod_unique hx hy).mpr ⟨heq, hr, by omega⟩
    rfl
  · have hr : r ≤ 0 := by
      rcases hsign with rfl | hsign
      · exact Int.le_refl 0
      · exact Int.sign_nonpos_iff.mp (hsign ▸ Int.sign_nonpos_iff.mpr hx)
    obtain ⟨rfl, rfl⟩ := (Int.tdiv_tmod_unique' hx hy).mpr ⟨heq, by omega, hr⟩
    rfl

theorem quotient_fits (hx : Fits limit x) (hy : y ≠ 0) (hmin : ¬ (x = -limit ∧ y = -1)) :
    Fits limit (x.tdiv y) := by
  unfold Fits at *
  by_cases hone : y.natAbs = 1
  · rcases (by omega : y = 1 ∨ y = -1) with rfl | rfl
    · rwa [Int.tdiv_one]
    · rw [Int.tdiv_neg, Int.tdiv_one]
      omega
  · have hquot : (x.tdiv y).natAbs = x.natAbs / y.natAbs := Int.natAbs_tdiv x y
    have hhalf : x.natAbs / y.natAbs ≤ x.natAbs / 2 :=
      Nat.div_le_div_left (by omega) (by decide)
    omega

/-- The one quotient of two numbers of a type that does not fit the type is that of the least number
and -1. -/
theorem representable_iff (hx : Fits limit x) (hy : Fits limit y) :
    Representable limit x y ↔ y ≠ 0 ∧ ¬ (x = -limit ∧ y = -1) := by
  unfold Fits at hx hy
  constructor
  · rintro ⟨d, hd, hquot, _⟩
    constructor
    · rintro rfl
      exact absurd hd.less (Nat.not_lt_zero _)
    · rintro ⟨rfl, rfl⟩
      have hover : Fits limit (limit : Int) := by simpa [hd.unique] using hquot
      exact absurd hover.2 (Int.lt_irrefl _)
  · rintro ⟨hne, hmin⟩
    have hrem : (x.tmod y).natAbs < y.natAbs := (divides_trunc hne x).less
    refine ⟨_, divides_trunc hne x, quotient_fits hx hne hmin, ?_⟩
    show Fits limit (x.tmod y)
    unfold Fits
    omega

theorem divide_run (hy : 0 < y) (h : x.tdiv y < limit) :
    (divide limit x y).run s = .ok ⟨x.tdiv y, x.tmod y⟩ s := by
  rw [divide, bind_ok (divTrunc_run s (by omega) h), bind_ok (rem_run s hy)]
  rfl

/-- The remainder refuses what the quotient has not refused yet. -/
theorem divide_fault (limit : Nat) (x : Int) (hy : ¬ 0 < y) :
    ∃ e, (divide limit x y).run s = .error e s := by
  unfold divide
  by_cases hzero : y = 0
  · exact ⟨_, bind_error (by rw [divTrunc, if_pos hzero]; rfl) _⟩
  · by_cases hlt : x.tdiv y < limit
    · rw [bind_ok (divTrunc_run s hzero hlt)]
      exact ⟨_, bind_error (rem_fault s hy) _⟩
    · exact ⟨_, bind_error (by rw [divTrunc, if_neg hzero, if_neg hlt]; rfl) _⟩

theorem returnsDivision_iff {ofInt : Int → α} {toInt : α → Int}
    (hback : ∀ v, Fits limit v → toInt (ofInt v) = v) (h : Representable limit x y) :
    ReturnsDivision s (DivType.map ofInt <$> divide limit x y) toInt x y ↔ 0 < y := by
  obtain ⟨d, hd, hquot, hrem⟩ := h
  obtain rfl := hd.unique
  constructor
  · rintro ⟨d, hrun, _⟩
    by_contra hy
    obtain ⟨e, herror⟩ := divide_fault s limit x hy
    rw [map_error herror] at hrun
    cases hrun
  · intro hy
    refine ⟨_, map_ok (divide_run s hy hquot.2) _, ?_⟩
    rwa [DivType.map, DivType.map, hback _ hquot, hback _ hrem]

end Divisions

theorem int_back (v : Int) (h : Fits 0x80000000 v) : (Int32.ofInt v).toInt = v :=
  Int32.toInt_ofInt_of_le h.1 h.2

theorem long_back (v : Int) (h : Fits 0x8000000000000000 v) : (Int64.ofInt v).toInt = v :=
  Int64.toInt_ofInt_of_le h.1 h.2

/-- The arithmetic of a result that fits is exact for abs, for the longs labs and llabs can see as
ints with a negative, and for the divisions by a positive denominator. -/
theorem arithmetic_iff (s : σ) :
    (∀ n : Int32, Fits 0x80000000 n.toInt.natAbs →
      ReturnsAbs s (abs n) Int32.toInt n.toInt) ∧
    (∀ n : Int64, Fits 0x8000000000000000 n.toInt.natAbs →
      (ReturnsAbs s (StdlibHeader.labs n) Int64.toInt n.toInt ↔ n.toInt.natAbs < 0x80000000) ∧
      (ReturnsAbs s (StdlibHeader.llabs n) Int64.toInt n.toInt ↔ n.toInt.natAbs < 0x80000000)) ∧
    (∀ x y : Int32, Representable 0x80000000 x.toInt y.toInt →
      (ReturnsDivision s (div x y) Int32.toInt x.toInt y.toInt ↔ 0 < y.toInt)) ∧
    ∀ x y : Int64, Representable 0x8000000000000000 x.toInt y.toInt →
      (ReturnsDivision s (ldiv x y) Int64.toInt x.toInt y.toInt ↔ 0 < y.toInt) ∧
      (ReturnsDivision s (lldiv x y) Int64.toInt x.toInt y.toInt ↔ 0 < y.toInt) := by
  refine ⟨fun n h => abs_returns s n h, fun n _ => ?_, fun x y h => ?_, fun x y h => ?_⟩
  · exact ⟨narrowed_returns_iff s n, narrowed_returns_iff s n⟩
  · exact returnsDivision_iff s int_back h
  · exact ⟨returnsDivision_iff s long_back h, returnsDivision_iff s long_back h⟩

theorem arithmetic_iff_example :
    ReturnsAbs () (abs (-5)) Int32.toInt (-5) ∧
    ReturnsAbs () (StdlibHeader.labs (-5)) Int64.toInt (-5) ∧
    ReturnsDivision () (div (-7) 2) Int32.toInt (-7) 2 := by
  obtain ⟨habs, hlabs, hdiv, _⟩ := arithmetic_iff ()
  have hfits : Representable 0x80000000 (-7) 2 :=
    (representable_iff ⟨by decide, by decide⟩ ⟨by decide, by decide⟩).mpr (by decide)
  exact ⟨habs (-5) ⟨by decide, by decide⟩, (hlabs (-5) ⟨by decide, by decide⟩).1.mpr (by decide),
    (hdiv (-7) 2 hfits).mpr (by decide)⟩

/-- A long that is an int without a negative, one that is no int, and a negative denominator. -/
theorem arithmetic_refused :
    fault? ((StdlibHeader.labs (-2147483648) : Run Unit Int64).run ()) = some .integerOverflow ∧
    value? ((StdlibHeader.llabs 4294967297 : Run Unit Int64).run ()) = some 1 ∧
    fault? ((div 7 (-2) : Run Unit div_t).run ()) =
      some (.panic "remainder division by zero or negative value") ∧
    Representable 0x80000000 7 (-2) ∧
    ¬ ReturnsAbs () (StdlibHeader.labs (-2147483648)) Int64.toInt (-2147483648) ∧
    ¬ ReturnsAbs () (StdlibHeader.llabs 4294967297) Int64.toInt 4294967297 ∧
    ¬ ReturnsDivision () (div 7 (-2)) Int32.toInt 7 (-2) := by
  have hfits : Representable 0x80000000 7 (-2) :=
    (representable_iff ⟨by decide, by decide⟩ ⟨by decide, by decide⟩).mpr (by decide)
  refine ⟨by decide, by decide, by decide, hfits, ?_, ?_, ?_⟩
  · exact fun h => absurd ((narrowed_returns_iff () (-2147483648)).mp h) (by decide)
  · exact fun h => absurd ((narrowed_returns_iff () 4294967297).mp h) (by decide)
  · exact fun h => absurd ((returnsDivision_iff () int_back hfits).mp h) (by decide)

end Stdlib
