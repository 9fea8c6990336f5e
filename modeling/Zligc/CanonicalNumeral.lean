import Mathlib.Data.Nat.Digits.Lemmas
import Mathlib.Tactic.Ring
import Zligc.Numeral

/-!
# Canonical numerals

In every base from 2 to 36 an integer has one numeral without a superfluous character: small
letters, no zero in front of other digits, no plus, and a minus for negative numbers only.
-/
namespace Numeral

/-- The digit or small letter of a value below 36. -/
def digitChar (d : Nat) : UInt8 := UInt8.ofNat (if d < 10 then 48 + d else 87 + d)

/-- The digits of a natural number, the most significant first. -/
def digitsFor (radix n : Nat) : List UInt8 :=
  if n = 0 then [48] else (radix.digits n).reverse.map digitChar

def numeral (radix : Nat) (v : Int) : List UInt8 :=
  if v < 0 then 45 :: digitsFor radix v.natAbs else digitsFor radix v.natAbs

def isCapital (c : UInt8) : Bool := decide (65 ≤ c ∧ c ≤ 90)

/-- Digits without capital letters, and without a zero in front of others. -/
structure Plain (radix : Nat) (ds : List UInt8) : Prop where
  digits : ∀ c ∈ ds, isDigit radix c
  small : ∀ c ∈ ds, isCapital c = false
  nonempty : ds ≠ []
  leading : ds.head? = some 48 → ds = [48]

inductive Canonical (radix : Nat) : List UInt8 → Prop where
  | natural {ds : List UInt8} : Plain radix ds → Canonical radix ds
  | negative {ds : List UInt8} : Plain radix ds → ds ≠ [48] → Canonical radix (45 :: ds)

section Digits

variable {radix d n : Nat} {c : UInt8} {ds : List UInt8}

theorem digitChar_toNat (h : d < 36) : (digitChar d).toNat = if d < 10 then 48 + d else 87 + d := by
  apply UInt8.toNat_ofNat_of_lt'
  show (if d < 10 then 48 + d else 87 + d) < 256
  split <;> omega

theorem digitValue_digitChar (h : d < 36) : digitValue (digitChar d) = some d := by
  have hchar := digitChar_toNat h
  simp only [digitValue, UInt8.le_iff_toNat_le, UInt8.reduceToNat, hchar]
  split <;> grind

theorem digitChar_small (h : d < 36) : isCapital (digitChar d) = false := by
  have hchar := digitChar_toNat h
  simp only [isCapital, UInt8.le_iff_toNat_le, UInt8.reduceToNat, hchar, decide_eq_false_iff_not]
  split <;> omega

/-- A small digit is the one of its value. -/
theorem digitChar_digitValue (hsmall : isCapital c = false) (hd : digitValue c = some d) :
    digitChar d = c := by
  have hlt := c.toNat_lt
  simp only [isCapital, UInt8.le_iff_toNat_le, UInt8.reduceToNat, decide_eq_false_iff_not] at hsmall
  simp only [digitValue, UInt8.le_iff_toNat_le, UInt8.reduceToNat, if_neg hsmall] at hd
  have hbound : d < 36 := by grind
  apply UInt8.toNat_inj.mp
  rw [digitChar_toNat hbound]
  grind

/-- The number of digits is their value as Mathlib reads them, the least significant first. -/
theorem number_eq_ofDigits (radix n : Nat) (ds : List UInt8) :
    number radix n ds = n * radix ^ ds.length +
      Nat.ofDigits radix (ds.reverse.map fun c => (digitValue c).getD 0) := by
  induction ds generalizing n with
  | nil => simp [number]
  | cons c ds ih =>
    rw [number, ih, List.reverse_cons, List.map_append, Nat.ofDigits_append, List.length_map,
      List.length_reverse, List.length_cons, List.map_singleton, Nat.ofDigits_singleton]
    ring

theorem values_digitChars (hr : radix ≤ 36) {L : List Nat} (hL : ∀ d ∈ L, d < radix) :
    L.map (fun d => (digitValue (digitChar d)).getD 0) = L := by
  rw [List.map_congr_left (g := id), List.map_id]
  intro d hd
  rw [digitValue_digitChar (Nat.lt_of_lt_of_le (hL d hd) hr)]
  rfl

theorem digitChars_values (hds : ∀ c ∈ ds, isDigit radix c) (hsmall : ∀ c ∈ ds, isCapital c = false) :
    ds.map (fun c => digitChar ((digitValue c).getD 0)) = ds := by
  rw [List.map_congr_left (g := id), List.map_id]
  intro c hc
  obtain ⟨d, hd, _⟩ := isDigit_iff.mp (hds c hc)
  rw [hd]
  exact digitChar_digitValue (hsmall c hc) hd

theorem number_zero (radix : Nat) : number radix 0 [48] = 0 := by
  simp [number, digitValue]

theorem number_digitsFor (hb : 2 ≤ radix) (hr : radix ≤ 36) (n : Nat) :
    number radix 0 (digitsFor radix n) = n := by
  unfold digitsFor
  split
  · rename_i hzero
    rw [hzero, number_zero]
  · have hlt : ∀ d ∈ radix.digits n, d < radix := fun d => Nat.digits_lt_base hb
    rw [number_eq_ofDigits, Nat.zero_mul, Nat.zero_add, ← List.map_reverse, List.reverse_reverse,
      List.map_map]
    exact (congrArg (Nat.ofDigits radix) (values_digitChars hr hlt)).trans
      (Nat.ofDigits_digits radix n)

theorem digit_digitChar (hr : radix ≤ 36) (hd : d < radix) : isDigit radix (digitChar d) = true :=
  isDigit_iff.mpr ⟨d, digitValue_digitChar (Nat.lt_of_lt_of_le hd hr), hd⟩

theorem plain_digitsFor (hb : 2 ≤ radix) (hr : radix ≤ 36) (n : Nat) :
    Plain radix (digitsFor radix n) := by
  unfold digitsFor
  split
  · refine ⟨?_, ?_, by decide, fun _ => rfl⟩
    · rw [List.forall_mem_singleton]
      exact digit_digitChar (d := 0) hr (by omega)
    · rw [List.forall_mem_singleton]
      rfl
  · rename_i hzero
    have hlt : ∀ d ∈ radix.digits n, d < radix := fun d => Nat.digits_lt_base hb
    have hne : radix.digits n ≠ [] := Nat.digits_ne_nil_iff_ne_zero.mpr hzero
    have hchars : ∀ c ∈ (radix.digits n).reverse.map digitChar, ∃ d < radix, digitChar d = c := by
      intro c hc
      obtain ⟨d, hd, rfl⟩ := List.mem_map.mp hc
      exact ⟨d, hlt d (List.mem_reverse.mp hd), rfl⟩
    refine ⟨fun c hc => ?_, fun c hc => ?_, by simpa using hne, fun hhead => ?_⟩
    · obtain ⟨d, hd, rfl⟩ := hchars c hc
      exact digit_digitChar hr hd
    · obtain ⟨d, hd, rfl⟩ := hchars c hc
      exact digitChar_small (Nat.lt_of_lt_of_le hd hr)
    · rw [List.head?_map, List.head?_reverse, List.getLast?_eq_some_getLast hne, Option.map_some,
        Option.some.injEq] at hhead
      have hlast := Nat.getLast_digit_ne_zero radix hzero
      have hvalue := digitValue_digitChar (Nat.lt_of_lt_of_le (hlt _ (List.getLast_mem hne)) hr)
      rw [hhead] at hvalue
      exact absurd (Option.some.inj hvalue).symm hlast

/-- Plain digits are those of their number. -/
theorem digitsFor_number (hb : 2 ≤ radix) (h : Plain radix ds) :
    digitsFor radix (number radix 0 ds) = ds := by
  have hradix : 0 < radix := by omega
  unfold digitsFor
  split
  · rename_i hzero
    have hall := ((number_eq_zero hradix h.digits).mp hzero).2
    obtain ⟨c, r, rfl⟩ := List.exists_cons_of_ne_nil h.nonempty
    obtain rfl := hall c (.head _)
    exact (h.leading rfl).symm
  · rename_i hzero
    have hlt : ∀ d ∈ ds.reverse.map (fun c => (digitValue c).getD 0), d < radix := by
      intro d hd
      obtain ⟨c, hc, rfl⟩ := List.mem_map.mp hd
      obtain ⟨d, hd, hlt⟩ := isDigit_iff.mp (h.digits c (List.mem_reverse.mp hc))
      rw [hd]
      exact hlt
    have hlast : ∀ hne : ds.reverse.map (fun c => (digitValue c).getD 0) ≠ [],
        (ds.reverse.map fun c => (digitValue c).getD 0).getLast hne ≠ 0 := by
      intro hne hlast
      obtain ⟨c, r, rfl⟩ := List.exists_cons_of_ne_nil h.nonempty
      have hc : (digitValue c).getD 0 = 0 := by simpa using hlast
      obtain rfl := (digitValue_zero (h.digits c (.head _))).mp hc
      rw [h.leading rfl] at hzero
      exact hzero (number_zero radix)
    rw [number_eq_ofDigits, Nat.zero_mul, Nat.zero_add, Nat.digits_ofDigits radix hb _ hlt hlast,
      ← List.map_reverse, List.reverse_reverse, List.map_map]
    exact digitChars_values h.digits h.small

end Digits

section Numerals

variable {radix : Nat} {s : List UInt8} {v : Int}

/-- The numeral of an integer has it as its value. -/
theorem numeral_isNumeral (hb : 2 ≤ radix) (hr : radix ≤ 36) (v : Int) :
    IsNumeral radix (numeral radix v) v := by
  have hplain := plain_digitsFor hb hr v.natAbs
  have hnumber := number_digitsFor hb hr v.natAbs
  have hblanks : ∀ c ∈ ([] : List UInt8), isSpace c := nofun
  unfold numeral
  split
  · have hnum := IsNumeral.mk hblanks .minus (.plain hb) hplain.nonempty hplain.digits
    rw [hnumber, signed, if_pos rfl] at hnum
    have hv : -(v.natAbs : Int) = v := by omega
    rwa [hv] at hnum
  · have hnum := IsNumeral.mk hblanks .none (.plain hb) hplain.nonempty hplain.digits
    rw [hnumber, signed, if_neg Bool.false_ne_true] at hnum
    have hv : (v.natAbs : Int) = v := by omega
    rwa [hv] at hnum

theorem numeral_value (hb : 2 ≤ radix) (hr : radix ≤ 36) (v : Int) :
    value radix (numeral radix v) = v :=
  (isNumeral_value (numeral_isNumeral hb hr v)).symm

/-- The canonical texts are the numerals of the integers. -/
theorem canonical_iff (hb : 2 ≤ radix) (hr : radix ≤ 36) :
    Canonical radix s ↔ ∃ v, numeral radix v = s := by
  constructor
  · intro h
    cases h with
    | natural hplain =>
      refine ⟨number radix 0 s, ?_⟩
      rw [numeral, if_neg (by omega), Int.natAbs_natCast]
      exact digitsFor_number hb hplain
    | @negative ds hplain hne =>
      have hdigits := digitsFor_number hb hplain
      have hpos : number radix 0 ds ≠ 0 := by
        intro hzero
        rw [hzero] at hdigits
        exact hne hdigits.symm
      refine ⟨-(number radix 0 ds : Int), ?_⟩
      rw [numeral, if_pos (by omega), Int.natAbs_neg, Int.natAbs_natCast, hdigits]
  · rintro ⟨v, rfl⟩
    have hplain := plain_digitsFor hb hr v.natAbs
    unfold numeral
    split
    · rename_i hneg
      refine .negative hplain fun hzero => ?_
      have hnumber := number_digitsFor hb hr v.natAbs
      rw [hzero] at hnumber
      rw [number_zero] at hnumber
      omega
    · exact .natural hplain

end Numerals

end Numeral
