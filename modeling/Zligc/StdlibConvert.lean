import Zligc.Slice
import Zligc.Numeral

/-!
# String to integer conversion in stdlib.zig

The conversions hand the whole string to std.fmt and return 0 when it refuses. So only a
string that is a numeral to its end, without white space and without a prefix, is converted;
the rest is right where the numeral at the front of the string is 0.
-/
namespace Fmt

open Numeral

def charToDigit (c : UInt8) (radix : Nat) : Option Nat :=
  (digitValue c).filter fun value => decide (value < radix)

/-- The loop of parseUnsigned: the number of the digits so far, which must not exceed the type. -/
def parseDigits (max radix : Nat) : Nat → List UInt8 → Option Nat
  | x, [] => some x
  | x, c :: buf =>
    match charToDigit c radix with
    | none => none
    | some digit =>
      if x * radix + digit ≤ max then parseDigits max radix (x * radix + digit) buf else none

/-- std.fmt.parseUnsigned for a type with the given maximum. -/
def parseUnsigned (max : Nat) (buf : List UInt8) (radix : Nat) : Option Nat :=
  parseDigits max radix 0 buf

/-- std.fmt.parseInt for a signed type that ranges from `-limit` to `limit - 1`. -/
def parseInt (limit : Nat) (buf : List UInt8) (radix : Nat) : Option Int :=
  match buf with
  | [] => some 0
  | c :: rest =>
    if c = 45 then (parseUnsigned limit rest radix).map fun n : Nat => -(n : Int)
    else if c = 43 then (parseUnsigned (limit - 1) rest radix).map fun n : Nat => (n : Int)
    else (parseUnsigned (limit - 1) (c :: rest) radix).map fun n : Nat => (n : Int)

end Fmt

namespace Stdlib

open Effect CellMemory Zig Numeral

/-- The conversions to a signed type that ranges from `-limit` to `limit - 1`. -/
def parseSigned (limit str : Nat) (radix : Run Mem UInt8) : Run Mem Int := do
  let buf ← Slice.toSliceConst str
  return (Fmt.parseInt limit buf (← radix).toNat).getD 0

def atoi (str : Nat) : Run Mem Int32 := Int32.ofInt <$> parseSigned 0x80000000 str (pure 10)

def atol (str : Nat) : Run Mem Int64 :=
  Int64.ofInt <$> parseSigned 0x8000000000000000 str (pure 10)

def atoll (str : Nat) : Run Mem Int64 :=
  Int64.ofInt <$> parseSigned 0x8000000000000000 str (pure 10)

def strtol (str : Nat) (_str_end : Option Nat) (base : Int32) : Run Mem Int64 :=
  Int64.ofInt <$> parseSigned 0x8000000000000000 str (castU8 base)

def strtoll (str : Nat) (_str_end : Option Nat) (base : Int32) : Run Mem Int64 :=
  Int64.ofInt <$> parseSigned 0x8000000000000000 str (castU8 base)

/-- The conversions to an unsigned type with the given maximum. -/
def parseNatural (max str : Nat) (radix : Run Mem UInt8) : Run Mem Nat := do
  let buf ← Slice.toSliceConst str
  return (Fmt.parseUnsigned max buf (← radix).toNat).getD 0

def strtoul (str : Nat) (_str_end : Option Nat) (base : Int32) : Run Mem UInt64 :=
  UInt64.ofNat <$> parseNatural 0xffffffffffffffff str (castU8 base)

def strtoull (str : Nat) (_str_end : Option Nat) (base : Int32) : Run Mem UInt64 :=
  UInt64.ofNat <$> parseNatural 0xffffffffffffffff str (castU8 base)

/-- The bases of the conversions: 2 to 36, and 0 for the one that the prefix tells. -/
def IsBase (base : Int32) : Prop := base = 0 ∨ (2 ≤ base.toInt ∧ base.toInt ≤ 36)

/-- A value that does not fit a signed type is replaced by the nearest one that does. -/
def clamp (limit : Nat) (v : Int) : Int := max (-limit) (min v (limit - 1))

def Fits (limit : Nat) (v : Int) : Prop := -limit ≤ v ∧ v < limit

variable {α : Type}

/-- The conversion returns what the string reads as, clamped to its type. -/
def Converts (m : Mem) (convert : Run Mem α) (toInt : α → Int) (limit base : Nat)
    (s : List UInt8) : Prop :=
  ∃ r v, convert.run m = .ok r m ∧ Reads base s v ∧ toInt r = clamp limit v

/-- The conversion returns what the string reads as if that fits. -/
def ConvertsFitting (m : Mem) (convert : Run Mem α) (toInt : α → Int) (limit base : Nat)
    (s : List UInt8) : Prop :=
  ∀ v, Reads base s v → Fits limit v → ∃ r, convert.run m = .ok r m ∧ toInt r = v

/-- The string is a sign, or none, and digits to its end. -/
def Bare (base : Nat) (s : List UInt8) : Prop := ∀ c ∈ (afterSign s).2, isDigit base c

/-- The numeral at the front of the string has no digit other than 0. -/
def Zeros (base : Nat) (s : List UInt8) : Prop := ∀ c ∈ digitsOf base s, c = 48

/-- The strings that a conversion to a signed type gets right. -/
def Converted (limit base : Nat) (s : List UInt8) : Prop :=
  (Bare base s ∧ Fits limit (value base s)) ∨ Zeros base s

section Parsing

variable {base limit max radix : Nat} {s ds : List UInt8} {c : UInt8}

theorem charToDigit_some {d : Nat} (h : isDigit radix c = true) (hd : digitValue c = some d) :
    Fmt.charToDigit c radix = some d := by
  have hlt : d < radix := by simpa [isDigit, hd] using h
  simp [Fmt.charToDigit, hd, hlt]

theorem charToDigit_none (h : isDigit radix c = false) : Fmt.charToDigit c radix = none := by
  unfold isDigit at h
  unfold Fmt.charToDigit
  cases hd : digitValue c with
  | none => rfl
  | some d =>
    rw [hd] at h
    simpa using h

/-- The loop takes digits to the end if their number does not exceed the type. -/
theorem parseDigits_eq {x : Nat} (hx : x ≤ max) :
    Fmt.parseDigits max radix x ds =
      if ds.all (isDigit radix) ∧ number radix x ds ≤ max then some (number radix x ds)
      else none := by
  induction ds generalizing x with
  | nil => simp [Fmt.parseDigits, number, hx]
  | cons c ds ih =>
    rw [Fmt.parseDigits]
    cases hc : isDigit radix c with
    | false => simp [charToDigit_none hc, hc]
    | true =>
      obtain ⟨d, hd, hlt⟩ := isDigit_iff.mp hc
      have hnext : number radix x (c :: ds) = number radix (x * radix + d) ds := by
        rw [number, hd, Option.getD_some]
      simp only [charToDigit_some hc hd, hnext, List.all_cons, hc, Bool.true_and]
      by_cases hle : x * radix + d ≤ max
      · rw [if_pos hle, ih hle]
      · have hmono := le_number (Nat.zero_lt_of_lt hlt) (x * radix + d) ds
        rw [if_neg hle, if_neg]
        exact fun h => hle (Nat.le_trans hmono h.2)

theorem parseUnsigned_eq (max : Nat) (ds : List UInt8) (radix : Nat) :
    Fmt.parseUnsigned max ds radix =
      if ds.all (isDigit radix) ∧ number radix 0 ds ≤ max then some (number radix 0 ds)
      else none :=
  parseDigits_eq (Nat.zero_le max)

/-- What a string that is digits to its end reads as. -/
theorem bare_value (h : Bare base s) :
    value base s = signed (afterSign s).1 (number base 0 (afterSign s).2) := by
  have hspace : s.dropWhile isSpace = s := by
    cases s with
    | nil => rfl
    | cons c t =>
      apply List.dropWhile_cons_of_neg
      rw [Bool.not_eq_true]
      rw [Bare, afterSign] at h
      split at h
      · rename_i hc
        rw [hc]
        rfl
      · split at h
        · rename_i hc
          rw [hc]
          rfl
        · exact digit_not_space (h c (.head _))
  have hall := List.takeWhile_eq_self_iff.mpr h
  by_cases hzero : base = 0
  · subst hzero
    have hnil : (afterSign s).2 = [] := by
      rw [List.eq_nil_iff_forall_not_mem]
      intro c hc
      obtain ⟨d, _, hlt⟩ := isDigit_iff.mp (h c hc)
      exact absurd hlt (Nat.not_lt_zero d)
    simp [value, digitsOf, hspace, hnil, subject, hexAhead, number]
  · have hsub : subject base (afterSign s).2 = (base, (afterSign s).2) := by
      apply subject_plain ?_ hzero
      rintro ⟨hhex, hahead⟩
      rw [hexAhead_digits (by omega) h] at hahead
      cases hahead
    simp [value, digitsOf, hspace, hsub, hall]

theorem signed_eq_zero (negative : Bool) (n : Nat) : signed negative n = 0 ↔ n = 0 := by
  cases negative <;> simp [signed]

theorem subject_radix_pos (hb : base = 0 ∨ 2 ≤ base) (t : List UInt8) :
    0 < (subject base t).1 := by
  unfold subject
  split
  · exact (by decide : 0 < 16)
  · split
    · show 0 < if _ then 8 else 10
      split <;> decide
    · rename_i hzero
      exact Nat.lt_of_lt_of_le Nat.two_pos (hb.resolve_left hzero)

theorem value_eq_zero (hb : base = 0 ∨ 2 ≤ base) : value base s = 0 ↔ Zeros base s := by
  rw [value, signed_eq_zero, number_eq_zero (subject_radix_pos hb _), Zeros]
  · simp
  · exact fun c hc => List.mem_takeWhile_imp hc

theorem fits_signed (hl : 0 < limit) (negative : Bool) (n : Nat) :
    Fits limit (signed negative n) ↔ n ≤ if negative then limit else limit - 1 := by
  unfold Fits signed
  cases negative with
  | true => simp only [if_true]; omega
  | false => simp only [Bool.false_eq_true, if_false]; omega

/-- parseInt strips a sign and leaves the rest to parseUnsigned. -/
theorem parseInt_signed (limit : Nat) (s : List UInt8) (radix : Nat) :
    Fmt.parseInt limit s radix =
      (Fmt.parseUnsigned (if (afterSign s).1 then limit else limit - 1) (afterSign s).2 radix).map
        fun n => signed (afterSign s).1 n := by
  cases s with
  | nil => rfl
  | cons c t =>
    rw [Fmt.parseInt, afterSign]
    by_cases hminus : c = 45
    · subst hminus
      rfl
    · by_cases hplus : c = 43
      · subst hplus
        rfl
      · rw [if_neg hminus, if_neg hplus, if_neg hplus, if_neg hminus]
        rfl

/-- parseInt takes bare numerals that fit, and nothing else that is not 0. -/
theorem parseInt_some (hl : 0 < limit) (h : Bare base s)
    (hfits : Fits limit (value base s)) : Fmt.parseInt limit s base = some (value base s) := by
  rw [bare_value h] at hfits ⊢
  rw [parseInt_signed, parseUnsigned_eq,
    if_pos ⟨List.all_eq_true.mpr h, (fits_signed hl _ _).mp hfits⟩]
  rfl

theorem parseInt_none (hl : 0 < limit)
    (h : ¬ (Bare base s ∧ Fits limit (value base s))) : Fmt.parseInt limit s base = none := by
  rw [parseInt_signed, parseUnsigned_eq, if_neg]
  · rfl
  · rintro ⟨hall, hle⟩
    have hbare : Bare base s := List.all_eq_true.mp hall
    apply h
    rw [bare_value hbare]
    exact ⟨hbare, (fits_signed hl _ _).mpr hle⟩

/-- What a conversion makes of a string in place of its value. -/
theorem parsed_eq_iff (hb : base = 0 ∨ 2 ≤ base) (hl : 0 < limit) {v : Int}
    (hv : v = 0 ↔ value base s = 0) (hfit : Fits limit (value base s) → v = value base s) :
    (Fmt.parseInt limit s base).getD 0 = v ↔
      (Bare base s ∧ Fits limit (value base s)) ∨ Zeros base s := by
  by_cases h : Bare base s ∧ Fits limit (value base s)
  · rw [parseInt_some hl h.1 h.2, Option.getD_some, hfit h.2]
    exact iff_of_true rfl (Or.inl h)
  · rw [parseInt_none hl h, Option.getD_none, eq_comm, hv, value_eq_zero hb]
    constructor
    · exact Or.inr
    · exact fun hcase => hcase.resolve_left h

theorem clamp_fits {v : Int} (h : Fits limit v) : clamp limit v = v := by
  unfold clamp Fits at *
  omega

theorem clamp_eq_zero {v : Int} (hl : 1 < limit) : clamp limit v = 0 ↔ v = 0 := by
  unfold clamp
  omega

/-- Whatever parseInt returns fits its type. -/
theorem parsed_fits (hl : 0 < limit) (base : Nat) (s : List UInt8) :
    Fits limit ((Fmt.parseInt limit s base).getD 0) := by
  by_cases h : Bare base s ∧ Fits limit (value base s)
  · rw [parseInt_some hl h.1 h.2]
    exact h.2
  · rw [parseInt_none hl h]
    exact ⟨by simp, by simpa using hl⟩

end Parsing

section Conversions

variable {m : Mem} {str : Nat} {s : List UInt8} {base : Int32}

/-- A base passes the cast to `u8`. -/
theorem base_run (hb : IsBase base) (m : Mem) :
    ∃ radix : UInt8, (castU8 base).run m = .ok radix m ∧ radix.toNat = base.toInt.toNat ∧
      (radix.toNat = 0 ∨ 2 ≤ radix.toNat) := by
  have hrange : 0 ≤ base.toInt ∧ base.toInt < 256 := by
    rcases hb with rfl | ⟨hlo, hhi⟩
    · decide
    · omega
  have hnat : (UInt8.ofNat base.toInt.toNat).toNat = base.toInt.toNat :=
    UInt8.toNat_ofNat_of_lt' (by show _ < 256; omega)
  refine ⟨_, castU8_run m hrange, hnat, ?_⟩
  rw [hnat]
  rcases hb with rfl | ⟨hlo, _⟩
  · exact Or.inl rfl
  · exact Or.inr (by omega)

theorem parseSigned_run (limit : Nat) {radix : UInt8} {get : Run Mem UInt8} (hs : StringAt m str s)
    (hget : get.run m = .ok radix m) :
    (parseSigned limit str get).run m = .ok ((Fmt.parseInt limit s radix.toNat).getD 0) m := by
  rw [parseSigned, bind_ok (Slice.toSliceConst_run hs), bind_ok hget, EStateM.run_pure]

/-- The integer that a conversion has parsed fits its type. -/
theorem ofInt_parsed (base : Nat) (s : List UInt8) :
    (Int64.ofInt ((Fmt.parseInt 0x8000000000000000 s base).getD 0)).toInt =
        (Fmt.parseInt 0x8000000000000000 s base).getD 0 ∧
    (Int32.ofInt ((Fmt.parseInt 0x80000000 s base).getD 0)).toInt =
      (Fmt.parseInt 0x80000000 s base).getD 0 := by
  have hlong := parsed_fits (by decide : 0 < 0x8000000000000000) base s
  have hint := parsed_fits (by decide : 0 < 0x80000000) base s
  exact ⟨Int64.toInt_ofInt_of_le hlong.1 hlong.2, Int32.toInt_ofInt_of_le hint.1 hint.2⟩

section Laws

variable {convert : Run Mem α} {toInt : α → Int} {limit base : Nat} {r : α}

/-- When the parsed integer is the clamped value. -/
theorem converts_iff (hb : base = 0 ∨ 2 ≤ base) (hl : 1 < limit) (hrun : convert.run m = .ok r m)
    (hr : toInt r = (Fmt.parseInt limit s base).getD 0) :
    Converts m convert toInt limit base s ↔ Converted limit base s := by
  rw [Converted, ← parsed_eq_iff (v := clamp limit (value base s)) hb (by omega)
    (clamp_eq_zero hl) clamp_fits, ← hr]
  constructor
  · rintro ⟨r', v, hrun', hreads, hv⟩
    rw [(reads_iff hb).mp hreads] at hv
    rwa [(EStateM.Result.ok.inj (hrun.symm.trans hrun')).1]
  · exact fun h => ⟨r, _, hrun, (reads_iff hb).mpr rfl, h⟩

/-- When the parsed integer is the value, if that fits. -/
theorem convertsFitting_iff (hb : base = 0 ∨ 2 ≤ base) (hl : 0 < limit)
    (hrun : convert.run m = .ok r m) (hr : toInt r = (Fmt.parseInt limit s base).getD 0) :
    ConvertsFitting m convert toInt limit base s ↔
      ¬ Fits limit (value base s) ∨ Converted limit base s := by
  rw [Converted, ← parsed_eq_iff (v := value base s) hb hl Iff.rfl fun _ => rfl, ← hr]
  constructor
  · intro h
    by_cases hfit : Fits limit (value base s)
    · obtain ⟨r', hrun', hv⟩ := h _ ((reads_iff hb).mpr rfl) hfit
      right
      rwa [(EStateM.Result.ok.inj (hrun.symm.trans hrun')).1]
    · exact Or.inl hfit
  · intro hcase v hreads hfit
    rw [(reads_iff hb).mp hreads] at hfit ⊢
    exact ⟨r, hrun, hcase.resolve_left fun hno => hno hfit⟩

end Laws

end Conversions

theorem signed_conversions_iff {m : Mem} {str : Nat} {s : List UInt8} {base : Int32}
    (hs : StringAt m str s) (hb : IsBase base) (str_end : Option Nat) :
    (Converts m (strtol str str_end base) Int64.toInt 0x8000000000000000 base.toInt.toNat s ↔
      Converted 0x8000000000000000 base.toInt.toNat s) ∧
    (Converts m (strtoll str str_end base) Int64.toInt 0x8000000000000000 base.toInt.toNat s ↔
      Converted 0x8000000000000000 base.toInt.toNat s) ∧
    (ConvertsFitting m (atoi str) Int32.toInt 0x80000000 10 s ↔
      ¬ Fits 0x80000000 (value 10 s) ∨ Converted 0x80000000 10 s) ∧
    (ConvertsFitting m (atol str) Int64.toInt 0x8000000000000000 10 s ↔
      ¬ Fits 0x8000000000000000 (value 10 s) ∨ Converted 0x8000000000000000 10 s) ∧
    (ConvertsFitting m (atoll str) Int64.toInt 0x8000000000000000 10 s ↔
      ¬ Fits 0x8000000000000000 (value 10 s) ∨ Converted 0x8000000000000000 10 s) := by
  obtain ⟨radix, hcast, hnat, hradix⟩ := base_run hb m
  have hlong := map_ok (parseSigned_run 0x8000000000000000 hs hcast) Int64.ofInt
  have hten := map_ok (parseSigned_run 0x8000000000000000 hs (EStateM.run_pure 10 m))
    Int64.ofInt
  have hint := map_ok (parseSigned_run 0x80000000 hs (EStateM.run_pure 10 m)) Int32.ofInt
  rw [← hnat]
  refine ⟨?_, ?_, ?_, ?_, ?_⟩
  · exact converts_iff hradix (by decide) hlong (ofInt_parsed _ s).1
  · exact converts_iff hradix (by decide) hlong (ofInt_parsed _ s).1
  · exact convertsFitting_iff (Or.inr (by decide)) (by decide) hint (ofInt_parsed 10 s).2
  · exact convertsFitting_iff (Or.inr (by decide)) (by decide) hten (ofInt_parsed 10 s).1
  · exact convertsFitting_iff (Or.inr (by decide)) (by decide) hten (ofInt_parsed 10 s).1

/-- The memory of the string 12 and of the string 12a. -/
def numeralMem : Mem := image 1 [49, 50, 0, 49, 50, 97, 0] Nat.one_pos (by decide)

theorem signed_conversions_iff_example :
    (Converts numeralMem (strtol 1 none 10) Int64.toInt 0x8000000000000000 10 [49, 50] ↔
      Converted 0x8000000000000000 10 [49, 50]) ∧
    (Converts numeralMem (strtoll 1 none 10) Int64.toInt 0x8000000000000000 10 [49, 50] ↔
      Converted 0x8000000000000000 10 [49, 50]) ∧
    (ConvertsFitting numeralMem (atoi 1) Int32.toInt 0x80000000 10 [49, 50] ↔
      ¬ Fits 0x80000000 (value 10 [49, 50]) ∨ Converted 0x80000000 10 [49, 50]) ∧
    (ConvertsFitting numeralMem (atol 1) Int64.toInt 0x8000000000000000 10 [49, 50] ↔
      ¬ Fits 0x8000000000000000 (value 10 [49, 50]) ∨ Converted 0x8000000000000000 10 [49, 50]) ∧
    (ConvertsFitting numeralMem (atoll 1) Int64.toInt 0x8000000000000000 10 [49, 50] ↔
      ¬ Fits 0x8000000000000000 (value 10 [49, 50]) ∨ Converted 0x8000000000000000 10 [49, 50]) :=
  @signed_conversions_iff _ _ _ 10 ⟨by decide, by decide⟩ (Or.inr (by decide)) none

/-- What follows the numeral in 12a makes the conversion return 0. -/
theorem strtol_trailing :
    StringAt numeralMem 4 [49, 50, 97] ∧ IsBase 10 ∧ Reads 10 [49, 50, 97] 12 ∧
      (strtol 4 none 10).run numeralMem = .ok 0 numeralMem ∧
      ¬ Converts numeralMem (strtol 4 none 10) Int64.toInt 0x8000000000000000 10 [49, 50, 97] := by
  have hs : StringAt numeralMem 4 [49, 50, 97] := ⟨by decide, by decide⟩
  have hreads : Reads 10 [49, 50, 97] 12 := (reads_iff (Or.inr (by decide))).mpr (by decide)
  have hcast : (castU8 10).run numeralMem = .ok 10 numeralMem := castU8_run _ (by decide)
  have hrun : (strtol 4 none 10).run numeralMem = .ok 0 numeralMem :=
    map_ok (parseSigned_run 0x8000000000000000 hs hcast) Int64.ofInt
  refine ⟨hs, Or.inr (by decide), hreads, hrun, ?_⟩
  rintro ⟨r, v, hr, hv, hclamp⟩
  rw [← (EStateM.Result.ok.inj (hrun.symm.trans hr)).1,
    (reads_iff (Or.inr (by decide))).mp hv] at hclamp
  revert hclamp
  decide

end Stdlib
