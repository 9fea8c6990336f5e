import Zligc.CanonicalNumeral
import Zligc.StdlibUnsigned

/-!
# Numerals and the conversions in stdlib.zig

In every base each conversion gives back the integer of its type that a numeral was written for.
It returns 0 for the canonical numerals of all other integers.
-/
namespace Stdlib

open Effect CellMemory Zig Numeral

/-- The conversion undoes the writing of the integers of its type, and takes no other canonical
numeral for one of them but 0. -/
structure ReadsBack {α : Type} (convert : Nat → Run Mem α) (toInt : α → Int) (radix : Nat) :
    Prop where
  back : ∀ m str a, StringAt m str (numeral radix (toInt a)) → (convert str).run m = .ok a m
  other : ∀ m str s, StringAt m str s → Canonical radix s →
    (∀ a, numeral radix (toInt a) ≠ s) → ∃ r, (convert str).run m = .ok r m ∧ toInt r = 0

section Parsing

variable {radix limit max : Nat}

theorem numeral_bare (hb : 2 ≤ radix) (hr : radix ≤ 36) (v : Int) :
    Bare radix (numeral radix v) := by
  have hplain := plain_digitsFor hb hr v.natAbs
  unfold numeral Bare
  split
  · exact hplain.digits
  · have hafter := afterSign_append (t := digitsFor radix v.natAbs) .none fun c r hcons =>
      digit_not_sign (hplain.digits c (by rw [hcons]; exact .head _))
    rw [List.nil_append] at hafter
    rw [hafter]
    exact hplain.digits

theorem parseInt_numeral (hb : 2 ≤ radix) (hr : radix ≤ 36) (hl : 0 < limit) (v : Int) :
    (Fits limit v → Fmt.parseInt limit (numeral radix v) radix = some v) ∧
      (¬ Fits limit v → Fmt.parseInt limit (numeral radix v) radix = none) := by
  have hbare := numeral_bare hb hr v
  have hvalue := numeral_value hb hr v
  constructor
  · intro hfits
    rw [← hvalue] at hfits
    rw [parseInt_some hl hbare hfits, hvalue]
  · intro hno
    apply parseInt_none hl
    rw [hvalue]
    exact fun h => hno h.2

/-- The unsigned parser takes no minus. -/
theorem parseUnsigned_numeral (hb : 2 ≤ radix) (hr : radix ≤ 36) (v : Int) :
    (0 ≤ v ∧ v ≤ max → Fmt.parseUnsigned max (numeral radix v) radix = some v.natAbs) ∧
      (¬ (0 ≤ v ∧ v ≤ max) → Fmt.parseUnsigned max (numeral radix v) radix = none) := by
  have hplain := plain_digitsFor hb hr v.natAbs
  have hnumber := number_digitsFor hb hr v.natAbs
  unfold numeral
  split
  · have hminus : Sign [45] true := .minus
    exact ⟨fun h => by omega, fun _ => parseUnsigned_sign max hminus (List.cons_ne_nil 45 [])⟩
  · constructor
    · intro h
      rw [parseUnsigned_digits hplain.digits (by rw [hnumber]; omega), hnumber]
    · intro h
      rw [parseUnsigned_eq, if_neg]
      rintro ⟨_, hle⟩
      rw [hnumber] at hle
      omega

end Parsing

section Conversions

variable {α : Type} {ofInt : Int → α} {toInt : α → Int} {limit max : Nat} {get : Run Mem UInt8}
  {radix : UInt8}

/-- A conversion to a signed type. -/
theorem signed_readsBack (hb : 2 ≤ radix.toNat) (hr : radix.toNat ≤ 36) (hl : 0 < limit)
    (hget : ∀ m, get.run m = .ok radix m) (hfits : ∀ a, Fits limit (toInt a))
    (hof : ∀ a, ofInt (toInt a) = a) (hto : ∀ v, Fits limit v → toInt (ofInt v) = v) :
    ReadsBack (fun str => ofInt <$> parseSigned limit str get) toInt radix.toNat := by
  constructor
  · intro m str a hs
    have hrun := map_ok (parseSigned_run limit hs (hget m)) ofInt
    rwa [(parseInt_numeral hb hr hl _).1 (hfits a), Option.getD_some, hof] at hrun
  · intro m str s hs hcanonical hno
    obtain ⟨v, rfl⟩ := (canonical_iff hb hr).mp hcanonical
    have hout : ¬ Fits limit v := fun hfit => hno (ofInt v) (by rw [hto v hfit])
    have hrun := map_ok (parseSigned_run limit hs (hget m)) ofInt
    rw [(parseInt_numeral hb hr hl _).2 hout, Option.getD_none] at hrun
    exact ⟨_, hrun, hto 0 ⟨by omega, by omega⟩⟩

theorem unsigned_readsBack (hb : 2 ≤ radix.toNat) (hr : radix.toNat ≤ 36)
    (hget : ∀ m, get.run m = .ok radix m) :
    ReadsBack (fun str => UInt64.ofNat <$> parseNatural 0xffffffffffffffff str get)
      (fun u => (u.toNat : Int)) radix.toNat := by
  constructor
  · intro m str u hs
    have hlt := u.toNat_lt
    have hrun := map_ok (parseNatural_run 0xffffffffffffffff hs (hget m)) UInt64.ofNat
    rwa [(parseUnsigned_numeral hb hr _).1 (by omega), Option.getD_some, Int.natAbs_natCast,
      UInt64.ofNat_toNat] at hrun
  · intro m str s hs hcanonical hno
    obtain ⟨v, rfl⟩ := (canonical_iff hb hr).mp hcanonical
    have hout : ¬ (0 ≤ v ∧ v ≤ (0xffffffffffffffff : Nat)) := by
      intro hin
      apply hno (UInt64.ofNat v.natAbs)
      have hback : (UInt64.ofNat v.natAbs).toNat = v.natAbs :=
        UInt64.toNat_ofNat_of_lt' (by show _ < 18446744073709551616; omega)
      rw [hback, Int.natAbs_of_nonneg hin.1]
    have hrun := map_ok (parseNatural_run 0xffffffffffffffff hs (hget m)) UInt64.ofNat
    rw [(parseUnsigned_numeral hb hr _).2 hout, Option.getD_none] at hrun
    exact ⟨_, hrun, rfl⟩

theorem long_readsBack (hb : 2 ≤ radix.toNat) (hr : radix.toNat ≤ 36)
    (hget : ∀ m, get.run m = .ok radix m) :
    ReadsBack (fun str => Int64.ofInt <$> parseSigned 0x8000000000000000 str get) Int64.toInt
      radix.toNat :=
  signed_readsBack hb hr (by decide) hget (fun a => ⟨a.le_toInt, a.toInt_lt⟩) Int64.ofInt_toInt
    fun _ hfit => Int64.toInt_ofInt_of_le hfit.1 hfit.2

theorem int_readsBack :
    ReadsBack (fun str => Int32.ofInt <$> parseSigned 0x80000000 str (pure 10)) Int32.toInt 10 :=
  @signed_readsBack _ _ _ _ _ 10 (by decide) (by decide) (by decide) (fun _ => rfl)
    (fun a => ⟨a.le_toInt, a.toInt_lt⟩) Int32.ofInt_toInt
    fun _ hfit => Int32.toInt_ofInt_of_le hfit.1 hfit.2

end Conversions

/-- The conversions read back every integer of their types in every base. -/
theorem numerals_read_back {base : Int32} (hb : 2 ≤ base.toInt ∧ base.toInt ≤ 36)
    (str_end : Option Nat) :
    ReadsBack (strtol · str_end base) Int64.toInt base.toInt.toNat ∧
    ReadsBack (strtoll · str_end base) Int64.toInt base.toInt.toNat ∧
    ReadsBack (strtoul · str_end base) (fun u => (u.toNat : Int)) base.toInt.toNat ∧
    ReadsBack (strtoull · str_end base) (fun u => (u.toNat : Int)) base.toInt.toNat ∧
    ReadsBack atoi Int32.toInt 10 ∧ ReadsBack atol Int64.toInt 10 ∧
    ReadsBack atoll Int64.toInt 10 := by
  have hnat : (UInt8.ofNat base.toInt.toNat).toNat = base.toInt.toNat :=
    UInt8.toNat_ofNat_of_lt' (by show _ < 256; omega)
  have hcast : ∀ m : Mem, (castU8 base).run m = .ok (UInt8.ofNat base.toInt.toNat) m :=
    fun m => castU8_run m (by omega)
  have hlow : 2 ≤ (UInt8.ofNat base.toInt.toNat).toNat := by omega
  have hhigh : (UInt8.ofNat base.toInt.toNat).toNat ≤ 36 := by omega
  have hlong := long_readsBack hlow hhigh hcast
  have hulong := unsigned_readsBack hlow hhigh hcast
  have hten := @long_readsBack _ 10 (by decide) (by decide) fun _ => rfl
  rw [hnat] at hlong hulong
  exact ⟨hlong, hlong, hulong, hulong, int_readsBack, hten, hten⟩

/-- The memory of the string -ff. -/
def negativeMem : Mem := image 1 [45, 102, 102, 0] Nat.one_pos (by decide)

theorem numerals_read_back_example : (strtol 1 none 16).run negativeMem = .ok (-255) negativeMem := by
  have hs : StringAt negativeMem 1 (numeral 16 (-255)) := by
    have hnum : numeral 16 (-255) = [45, 102, 102] := by simp [numeral, digitsFor, digitChar]
    rw [hnum]
    exact ⟨by decide, by decide⟩
  have hbase : 2 ≤ Int32.toInt 16 ∧ Int32.toInt 16 ≤ 36 := by decide
  exact (numerals_read_back hbase none).1.back negativeMem 1 (-255) hs

end Stdlib
