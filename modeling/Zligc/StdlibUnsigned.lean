import Zligc.StdlibConvert

/-!
# The signed and the unsigned conversions in stdlib.zig

std.fmt.parseInt strips a sign of either kind and std.fmt.parseUnsigned none. So the two
families agree on numerals without a sign, and on signed ones only if they are 0.
-/
namespace Stdlib

open Effect CellMemory Zig Numeral

/-- The two conversions differ only in how their types read the bits. -/
def Agree (m : Mem) (signed : Run Mem Int64) (unsigned : Run Mem UInt64) : Prop :=
  ∃ l, signed.run m = .ok l m ∧ unsigned.run m = .ok l.toUInt64 m

variable {m : Mem} {str : Nat} {s sign ds : List UInt8} {negative : Bool} {radix : Nat}

theorem parseNatural_run (max : Nat) {base : UInt8} {get : Run Mem UInt8} (hs : StringAt m str s)
    (hget : get.run m = .ok base m) :
    (parseNatural max str get).run m =
      .ok ((Fmt.parseUnsigned max s base.toNat).getD 0) m := by
  rw [parseNatural, bind_ok (Slice.toSliceConst_run hs), bind_ok hget, EStateM.run_pure]

/-- A sign is no digit, so that the unsigned parser refuses it. -/
theorem parseUnsigned_sign (max : Nat) (hsign : Sign sign negative) (hne : sign ≠ []) :
    Fmt.parseUnsigned max (sign ++ ds) radix = none := by
  rw [parseUnsigned_eq, if_neg]
  rintro ⟨hds, _⟩
  have hall := List.all_eq_true.mp hds
  cases hsign with
  | none => exact hne rfl
  | plus => exact (digit_not_sign (hall 43 (.head _))).1 rfl
  | minus => exact (digit_not_sign (hall 45 (.head _))).2 rfl

theorem parseUnsigned_digits {max : Nat} (hds : ∀ c ∈ ds, isDigit radix c)
    (hmax : number radix 0 ds ≤ max) :
    Fmt.parseUnsigned max ds radix = some (number radix 0 ds) := by
  rw [parseUnsigned_eq, if_pos ⟨List.all_eq_true.mpr hds, hmax⟩]

/-- The signed parser reads signed digits. -/
theorem parseInt_digits {limit : Nat} (hsign : Sign sign negative) (hne : ds ≠ [])
    (hds : ∀ c ∈ ds, isDigit radix c) (hfit : number radix 0 ds < limit) :
    Fmt.parseInt limit (sign ++ ds) radix = some (signed negative (number radix 0 ds)) := by
  have hafter : afterSign (sign ++ ds) = (negative, ds) := by
    apply afterSign_append hsign
    rintro c r rfl
    exact digit_not_sign (hds c (.head _))
  have hmax : number radix 0 ds ≤ if negative then limit else limit - 1 := by
    split <;> omega
  rw [parseInt_signed, hafter, parseUnsigned_digits hds hmax]
  rfl

/-- A value that fits has the bits of 0 only if it is 0. -/
theorem toUInt64_eq_zero {v : Int} (h : Fits 0x8000000000000000 v) :
    (Int64.ofInt v).toUInt64 = 0 ↔ v = 0 := by
  have hv : (Int64.ofInt v).toInt = v := Int64.toInt_ofInt_of_le h.1 h.2
  constructor
  · intro hzero
    have hback := congrArg UInt64.toInt64 hzero
    rw [Int64.toInt64_toUInt64] at hback
    rw [← hv, hback]
    rfl
  · rintro rfl
    rfl

/-- When the unsigned parser finds the bits of what the signed one does. -/
theorem parsed_agree_iff (hb : 2 ≤ radix) (hsign : Sign sign negative) (hne : ds ≠ [])
    (hds : ∀ c ∈ ds, isDigit radix c) (hfit : number radix 0 ds < 0x8000000000000000) :
    UInt64.ofNat ((Fmt.parseUnsigned 0xffffffffffffffff (sign ++ ds) radix).getD 0) =
        (Int64.ofInt ((Fmt.parseInt 0x8000000000000000 (sign ++ ds) radix).getD 0)).toUInt64 ↔
      sign = [] ∨ ∀ c ∈ ds, c = 48 := by
  rw [parseInt_digits hsign hne hds hfit, Option.getD_some]
  by_cases hnone : sign = []
  · subst hnone
    cases hsign
    rw [List.nil_append, parseUnsigned_digits hds (by omega), Option.getD_some, signed,
      if_neg Bool.false_ne_true, Int64.ofInt_eq_ofNat, Int64.toUInt64_ofNat']
    exact iff_of_true rfl (Or.inl rfl)
  · have hbits : Fits 0x8000000000000000 (signed negative (number radix 0 ds)) :=
      (fits_signed (by decide) _ _).mpr (by split <;> omega)
    have hzero := number_eq_zero (n := 0) (Nat.lt_of_lt_of_le Nat.two_pos hb) hds
    rw [parseUnsigned_sign _ hsign hnone, Option.getD_none, show UInt64.ofNat 0 = 0 from rfl, eq_comm,
      toUInt64_eq_zero hbits, signed_eq_zero, hzero]
    simp [hnone]

theorem agree_iff {convert : Run Mem Int64} {convert' : Run Mem UInt64} {l : Int64} {u : UInt64}
    (hrun : convert.run m = .ok l m) (hrun' : convert'.run m = .ok u m) :
    Agree m convert convert' ↔ u = l.toUInt64 := by
  constructor
  · rintro ⟨l', hl, hu⟩
    rw [(EStateM.Result.ok.inj (hrun.symm.trans hl)).1]
    exact (EStateM.Result.ok.inj (hrun'.symm.trans hu)).1
  · rintro rfl
    exact ⟨l, hrun, hrun'⟩

theorem conversions_agree_iff {base : Int32} (hs : StringAt m str (sign ++ ds))
    (hb : 2 ≤ base.toInt ∧ base.toInt ≤ 36) (hsign : Sign sign negative) (hne : ds ≠ [])
    (hds : ∀ c ∈ ds, isDigit base.toInt.toNat c)
    (hfit : number base.toInt.toNat 0 ds < 0x8000000000000000) (str_end : Option Nat) :
    (Agree m (strtol str str_end base) (strtoul str str_end base) ↔
      sign = [] ∨ ∀ c ∈ ds, c = 48) ∧
    (Agree m (strtoll str str_end base) (strtoull str str_end base) ↔
      sign = [] ∨ ∀ c ∈ ds, c = 48) := by
  obtain ⟨radix, hcast, hnat, _⟩ := base_run (Or.inr hb) m
  rw [← hnat] at hds hfit
  have hlong := map_ok (parseSigned_run 0x8000000000000000 hs hcast) Int64.ofInt
  have hulong := map_ok (parseNatural_run 0xffffffffffffffff hs hcast) UInt64.ofNat
  have hiff := parsed_agree_iff (by omega) hsign hne hds hfit
  exact ⟨(agree_iff hlong hulong).trans hiff, (agree_iff hlong hulong).trans hiff⟩

/-- The memory of the string 12 and of the string -1. -/
def signedMem : Mem := image 1 [49, 50, 0, 45, 49, 0] Nat.one_pos (by decide)

theorem conversions_agree_iff_example :
    (Agree signedMem (strtol 1 none 10) (strtoul 1 none 10) ↔
      ([] : List UInt8) = [] ∨ ∀ c ∈ ([49, 50] : List UInt8), c = 48) ∧
    (Agree signedMem (strtoll 1 none 10) (strtoull 1 none 10) ↔
      ([] : List UInt8) = [] ∨ ∀ c ∈ ([49, 50] : List UInt8), c = 48) := by
  have hds : ∀ c ∈ ([49, 50] : List UInt8), isDigit (Int32.toInt 10).toNat c := by
    simp [isDigit, digitValue]
  exact @conversions_agree_iff _ _ _ _ _ 10 ⟨by decide, by decide⟩ (by decide) .none (by decide)
    hds (by decide) none

/-- The signed conversion of -1 is -1 and the unsigned one 0. -/
theorem strtoul_minus :
    StringAt signedMem 4 ([45] ++ [49]) ∧ Sign [45] true ∧
      (strtol 4 none 10).run signedMem = .ok (-1) signedMem ∧
      (strtoul 4 none 10).run signedMem = .ok 0 signedMem ∧
      ¬ Agree signedMem (strtol 4 none 10) (strtoul 4 none 10) := by
  have hs : StringAt signedMem 4 ([45] ++ [49]) := ⟨by decide, by decide⟩
  have hcast : (castU8 10).run signedMem = .ok 10 signedMem := castU8_run _ (by decide)
  have hint : Fmt.parseInt 0x8000000000000000 ([45] ++ [49]) 10 = some (-1) := by decide
  have huint : Fmt.parseUnsigned 0xffffffffffffffff ([45] ++ [49]) 10 = none := by decide
  have hlong : (strtol 4 none 10).run signedMem = .ok (-1) signedMem := by
    have hrun := map_ok (parseSigned_run 0x8000000000000000 hs hcast) Int64.ofInt
    rwa [show UInt8.toNat 10 = 10 from rfl, hint] at hrun
  have hulong : (strtoul 4 none 10).run signedMem = .ok 0 signedMem := by
    have hrun := map_ok (parseNatural_run 0xffffffffffffffff hs hcast) UInt64.ofNat
    rwa [show UInt8.toNat 10 = 10 from rfl, huint] at hrun
  refine ⟨hs, .minus, hlong, hulong, ?_⟩
  rw [agree_iff hlong hulong]
  decide

end Stdlib
