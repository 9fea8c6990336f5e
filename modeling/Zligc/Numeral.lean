import Zligc.Spans

/-!
# Numerals at the front of a text

A numeral is white space, a sign, the prefix of its base and digits, all but the digits
optional. What a text reads as is the value of the longest numeral it begins with.
-/
namespace Numeral

open Spans

def isSpace (c : UInt8) : Bool := c == 32 || decide (9 ≤ c ∧ c ≤ 13)

/-- The values of digits and letters. -/
def digitValue (c : UInt8) : Option Nat :=
  if 48 ≤ c ∧ c ≤ 57 then some (c.toNat - 48)
  else if 65 ≤ c ∧ c ≤ 90 then some (c.toNat - 55)
  else if 97 ≤ c ∧ c ≤ 122 then some (c.toNat - 87)
  else none

def isDigit (radix : Nat) (c : UInt8) : Bool := (digitValue c).any fun d => decide (d < radix)

/-- The number that digits make behind the number `n`. -/
def number (radix : Nat) : Nat → List UInt8 → Nat
  | n, [] => n
  | n, c :: ds => number radix (n * radix + (digitValue c).getD 0) ds

/-- A sign, and whether it is a minus. -/
inductive Sign : List UInt8 → Bool → Prop where
  | none : Sign [] false
  | plus : Sign [43] false
  | minus : Sign [45] true

/-- The prefixes that may stand before digits, and the radix of the digits. Base 0 is that of the
prefix; base 16 allows one. -/
inductive Introduces (base : Nat) : List UInt8 → Nat → List UInt8 → Prop where
  | plain {ds : List UInt8} : 2 ≤ base → Introduces base [] base ds
  | hex {x : UInt8} {ds : List UInt8} : base = 0 ∨ base = 16 → x = 88 ∨ x = 120 →
      Introduces base [48, x] 16 ds
  | octal {ds : List UInt8} : base = 0 → ds.head? = some 48 → Introduces base [] 8 ds
  | decimal {ds : List UInt8} : base = 0 → ds.head? ≠ some 48 → Introduces base [] 10 ds

def signed (negative : Bool) (n : Nat) : Int := if negative then -n else n

/-- The text is a numeral with a value. -/
inductive IsNumeral (base : Nat) : List UInt8 → Int → Prop where
  | mk {blanks sign intro ds : List UInt8} {negative : Bool} {radix : Nat} :
      (∀ c ∈ blanks, isSpace c) → Sign sign negative → Introduces base intro radix ds → ds ≠ [] →
      (∀ c ∈ ds, isDigit radix c) →
      IsNumeral base (blanks ++ (sign ++ (intro ++ ds))) (signed negative (number radix 0 ds))

/-- The value of the longest numeral at the front of a text, and 0 if there is none. -/
def Reads (base : Nat) (s : List UInt8) (v : Int) : Prop :=
  (∃ p, p <+: s ∧ IsNumeral base p v ∧
    ∀ p' v', p' <+: s → IsNumeral base p' v' → p'.length ≤ p.length) ∨
  ((∀ p v', p <+: s → ¬ IsNumeral base p v') ∧ v = 0)

/-- The text behind a sign, and whether the sign is a minus. -/
def afterSign : List UInt8 → Bool × List UInt8
  | [] => (false, [])
  | c :: t => if c = 43 then (false, t) else if c = 45 then (true, t) else (false, c :: t)

/-- The text begins with the prefix 0x and a digit behind it. -/
def hexAhead : List UInt8 → Bool
  | z :: x :: c :: _ => z == 48 && (x == 88 || x == 120) && isDigit 16 c
  | _ => false

/-- The radix of the digits a text begins with, and the text from the digits on. -/
def subject (base : Nat) (t : List UInt8) : Nat × List UInt8 :=
  if (base = 0 ∨ base = 16) ∧ hexAhead t then (16, t.drop 2)
  else if base = 0 then (if t.head? = some 48 then 8 else 10, t)
  else (base, t)

/-- The digits of the numeral at the front of a text. -/
def digitsOf (base : Nat) (s : List UInt8) : List UInt8 :=
  let u := subject base (afterSign (s.dropWhile isSpace)).2
  u.2.takeWhile (isDigit u.1)

def value (base : Nat) (s : List UInt8) : Int :=
  let t := afterSign (s.dropWhile isSpace)
  signed t.1 (number (subject base t.2).1 0 (digitsOf base s))

section Characters

variable {radix : Nat} {c : UInt8}

theorem isDigit_iff : isDigit radix c ↔ ∃ d, digitValue c = some d ∧ d < radix := by
  simp [isDigit, Option.any_eq_true]

/-- A digit is a character from '0' on that is no sign and no white space. -/
theorem digit_range (h : isDigit radix c = true) : 48 ≤ c ∧ c ≤ 122 := by
  obtain ⟨d, hd, _⟩ := isDigit_iff.mp h
  unfold digitValue at hd
  split at hd
  · grind
  · split at hd
    · grind
    · split at hd
      · grind
      · cases hd

theorem digit_not_space (h : isDigit radix c = true) : isSpace c = false := by
  have hrange := digit_range h
  unfold isSpace
  grind

theorem digit_not_sign (h : isDigit radix c = true) : c ≠ 43 ∧ c ≠ 45 := by
  have hrange := digit_range h
  grind

/-- The letter of the prefix is no digit of the bases that allow it. -/
theorem x_not_digit (h : c = 88 ∨ c = 120) (hr : radix ≤ 16) : isDigit radix c = false := by
  rcases h with rfl | rfl
  · simp [isDigit, digitValue]
    omega
  · simp [isDigit, digitValue]
    omega

theorem digitValue_zero (h : isDigit radix c = true) : (digitValue c).getD 0 = 0 ↔ c = 48 := by
  obtain ⟨d, hd, _⟩ := isDigit_iff.mp h
  have heq : c = 48 ↔ c.toNat = 48 := UInt8.toNat_inj.symm
  rw [hd, Option.getD_some, heq]
  simp only [digitValue, UInt8.le_iff_toNat_le, UInt8.reduceToNat] at hd
  split at hd
  · grind
  · split at hd
    · grind
    · split at hd
      · grind
      · cases hd

end Characters

section Numbers

variable {radix : Nat} {ds : List UInt8}

/-- Digits only add to the number before them. -/
theorem le_number (hr : 0 < radix) (n : Nat) (ds : List UInt8) : n ≤ number radix n ds := by
  induction ds generalizing n with
  | nil => exact Nat.le_refl n
  | cons c ds ih =>
    calc n ≤ n * radix := Nat.le_mul_of_pos_right n hr
      _ ≤ n * radix + (digitValue c).getD 0 := Nat.le_add_right _ _
      _ ≤ number radix n (c :: ds) := ih _

theorem number_eq_zero (hr : 0 < radix) (hds : ∀ c ∈ ds, isDigit radix c) {n : Nat} :
    number radix n ds = 0 ↔ n = 0 ∧ ∀ c ∈ ds, c = 48 := by
  induction ds generalizing n with
  | nil => simp [number]
  | cons c ds ih =>
    rw [List.forall_mem_cons] at hds ⊢
    have hzero := digitValue_zero hds.1
    rw [number, ih hds.2, Nat.add_eq_zero_iff, Nat.mul_eq_zero, hzero]
    have hne : radix ≠ 0 := Nat.ne_of_gt hr
    simp [hne, and_assoc]

end Numbers

section Reading

variable {base radix : Nat} {s t ds rest intro sign blanks : List UInt8} {negative : Bool}

theorem dropWhile_blanks (h : ∀ c ∈ blanks, isSpace c) (ht : ∀ c r, t = c :: r → isSpace c = false) :
    (blanks ++ t).dropWhile isSpace = t := by
  rw [List.dropWhile_append_of_pos h]
  cases t with
  | nil => rfl
  | cons c r => rw [List.dropWhile_cons_of_neg (by simp [ht c r rfl])]

/-- A sign can be told from a digit. -/
theorem afterSign_append (hs : Sign sign negative)
    (ht : ∀ c r, t = c :: r → c ≠ 43 ∧ c ≠ 45) : afterSign (sign ++ t) = (negative, t) := by
  cases hs with
  | plus => rfl
  | minus => rfl
  | none =>
    cases t with
    | nil => rfl
    | cons c r =>
      obtain ⟨hplus, hminus⟩ := ht c r rfl
      simp [afterSign, hplus, hminus]

/-- The part of a numeral behind its sign begins with a digit. -/
theorem introduced_head (hi : Introduces base intro radix ds) (hne : ds ≠ [])
    (hds : ∀ c ∈ ds, isDigit radix c) (rest : List UInt8) :
    ∃ c r, intro ++ ds ++ rest = c :: r ∧ ∃ radix, isDigit radix c = true := by
  obtain ⟨c, r, rfl⟩ := List.exists_cons_of_ne_nil hne
  cases hi with
  | hex => exact ⟨48, _, rfl, 16, by decide⟩
  | plain | octal | decimal => exact ⟨c, r ++ rest, rfl, _, hds c (.head _)⟩

/-- No text that begins with two digits of a small radix has a prefix to skip. -/
theorem not_hexAhead {c d : UInt8} {r : List UInt8} (hr : radix ≤ 16)
    (hd : isDigit radix d = true) : hexAhead (c :: d :: r) = false := by
  cases r with
  | nil => rfl
  | cons e r =>
    have hx : d ≠ 88 ∧ d ≠ 120 := by
      constructor
      · rintro rfl
        rw [x_not_digit (Or.inl rfl) hr] at hd
        cases hd
      · rintro rfl
        rw [x_not_digit (Or.inr rfl) hr] at hd
        cases hd
    simp [hexAhead, hx]

/-- Digits of a small radix with a prefix to skip are the 0 of the prefix. -/
theorem single_of_hexAhead (hr : radix ≤ 16) (hds : ∀ c ∈ ds, isDigit radix c)
    (h : hexAhead (ds ++ rest) = true) : ds.length ≤ 1 := by
  match ds, hds, h with
  | [], _, _ => exact Nat.zero_le 1
  | [_], _, _ => exact Nat.le_refl 1
  | c :: d :: r, hds, h =>
    rw [List.cons_append, List.cons_append, not_hexAhead hr (hds d (by simp))] at h
    cases h

theorem hexAhead_hex {x c : UInt8} {r : List UInt8} (hx : x = 88 ∨ x = 120)
    (hc : isDigit 16 c = true) : hexAhead (48 :: x :: c :: r) = true := by
  rcases hx with rfl | rfl <;> simp [hexAhead, hc]

/-- How far a numeral reaches at the front of a text behind its sign. -/
def reach (base : Nat) (t : List UInt8) : Nat :=
  t.length - (subject base t).2.length +
    ((subject base t).2.takeWhile (isDigit (subject base t).1)).length

theorem subject_plain (h : ¬ ((base = 0 ∨ base = 16) ∧ hexAhead t = true)) (hb : base ≠ 0) :
    subject base t = (base, t) := by
  rw [subject, if_neg h, if_neg hb]

theorem subject_hex (hb : base = 0 ∨ base = 16) (h : hexAhead t = true) :
    subject base t = (16, t.drop 2) := by
  rw [subject, if_pos ⟨hb, h⟩]

theorem subject_zero (h : hexAhead t = false) :
    subject 0 t = (if t.head? = some 48 then 8 else 10, t) := by
  simp [subject, h]

theorem hexAhead_front (h : hexAhead t = true) : 3 ≤ t.length ∧ t.head? = some 48 := by
  match t, h with
  | z :: x :: c :: r, h =>
    simp only [hexAhead, Bool.and_eq_true, beq_iff_eq] at h
    exact ⟨by simp, by rw [List.head?_cons, h.1.1]⟩

theorem hexAhead_digits (hr : radix ≤ 16) (hds : ∀ c ∈ ds, isDigit radix c) :
    hexAhead ds = false := by
  rw [Bool.eq_false_iff]
  intro h
  have hlong := (hexAhead_front h).1
  have hshort : ds.length ≤ 1 := by
    apply single_of_hexAhead hr hds
    rwa [List.append_nil]
  omega

theorem head_append (hne : ds ≠ []) (rest : List UInt8) : (ds ++ rest).head? = ds.head? := by
  obtain ⟨c, r, rfl⟩ := List.exists_cons_of_ne_nil hne
  rfl

/-- The digits of a numeral belong to the run of digits it stands at the front of. -/
theorem digits_run (hds : ∀ c ∈ ds, isDigit radix c) (rest : List UInt8) :
    ds.length ≤ ((ds ++ rest).takeWhile (isDigit radix)).length := by
  apply le_takeWhile_length
  · rw [List.length_append]
    omega
  · rw [List.take_left]
    exact hds

theorem reach_here (h : subject base t = (radix, t)) :
    reach base t = (t.takeWhile (isDigit radix)).length := by
  simp [reach, h]

/-- A prefix to skip reaches further than the 0 it begins with. -/
theorem reach_hex (hb : base = 0 ∨ base = 16) (h : hexAhead t = true) : 2 ≤ reach base t := by
  have hlong := (hexAhead_front h).1
  rw [reach, subject_hex hb h, List.length_drop]
  omega

/-- Digits before a prefix to skip are the one 0 that it begins with. -/
theorem digits_reach_hex (hb : base = 0 ∨ base = 16) (hr : radix ≤ 16)
    (hds : ∀ c ∈ ds, isDigit radix c) {rest : List UInt8} (hhex : hexAhead (ds ++ rest) = true) :
    ds.length ≤ reach base (ds ++ rest) := by
  have hone := single_of_hexAhead hr hds hhex
  have hreach := reach_hex hb hhex
  omega

/-- A numeral reaches no further than the digits that its radix allows. -/
theorem introduced_reach (hi : Introduces base intro radix ds) (hne : ds ≠ [])
    (hds : ∀ c ∈ ds, isDigit radix c) (rest : List UInt8) :
    (intro ++ ds).length ≤ reach base (intro ++ ds ++ rest) := by
  have hrun := digits_run hds rest
  cases hi with
  | plain hb =>
    rw [List.nil_append]
    by_cases hhex : (base = 0 ∨ base = 16) ∧ hexAhead (ds ++ rest) = true
    · exact digits_reach_hex hhex.1 (by omega) hds hhex.2
    · rw [reach_here (subject_plain hhex (by omega))]
      exact hrun
  | hex hb hx =>
    obtain ⟨c, r, rfl⟩ := List.exists_cons_of_ne_nil hne
    have hsub := subject_hex hb (hexAhead_hex (r := r ++ rest) hx (hds c (.head _)))
    rw [List.append_assoc, reach]
    simp only [List.cons_append, List.nil_append, List.length_cons] at hrun hsub ⊢
    rw [hsub]
    simp only [List.drop_succ_cons, List.drop_zero, List.length_cons]
    omega
  | octal hb hhead =>
    subst hb
    rw [List.nil_append]
    cases hhex : hexAhead (ds ++ rest) with
    | true => exact digits_reach_hex (Or.inl rfl) (by decide) hds hhex
    | false =>
      have hsub := subject_zero hhex
      rw [if_pos (by rw [head_append hne, hhead])] at hsub
      rw [reach_here hsub]
      exact hrun
  | decimal hb hhead =>
    subst hb
    rw [List.nil_append]
    cases hhex : hexAhead (ds ++ rest) with
    | true =>
      have hfront := (hexAhead_front hhex).2
      rw [head_append hne] at hfront
      exact absurd hfront hhead
    | false =>
      have hsub := subject_zero hhex
      rw [if_neg (by rwa [head_append hne])] at hsub
      rw [reach_here hsub]
      exact hrun

/-- A text that is a numeral has no other parts. -/
theorem introduced_subject (hi : Introduces base intro radix ds) (hne : ds ≠ [])
    (hds : ∀ c ∈ ds, isDigit radix c) : subject base (intro ++ ds) = (radix, ds) := by
  cases hi with
  | plain hb =>
    apply subject_plain ?_ (by omega)
    rintro ⟨hhex, hahead⟩
    rw [List.nil_append, hexAhead_digits (by omega) hds] at hahead
    cases hahead
  | hex hb hx =>
    obtain ⟨c, r, rfl⟩ := List.exists_cons_of_ne_nil hne
    exact subject_hex hb (hexAhead_hex hx (hds c (.head _)))
  | octal hb hhead =>
    subst hb
    rw [List.nil_append, subject_zero (hexAhead_digits (by decide) hds), if_pos hhead]
  | decimal hb hhead =>
    subst hb
    rw [List.nil_append, subject_zero (hexAhead_digits (by decide) hds), if_neg hhead]

/-- What follows the blanks and the sign of a numeral. -/
theorem numeral_afterSign (hblanks : ∀ c ∈ blanks, isSpace c) (hs : Sign sign negative)
    (hi : Introduces base intro radix ds) (hne : ds ≠ []) (hds : ∀ c ∈ ds, isDigit radix c)
    (rest : List UInt8) :
    afterSign ((blanks ++ (sign ++ (intro ++ ds ++ rest))).dropWhile isSpace) =
      (negative, intro ++ ds ++ rest) := by
  obtain ⟨c, r, hcons, radix', hc⟩ := introduced_head hi hne hds rest
  rw [hcons]
  rw [dropWhile_blanks hblanks]
  · apply afterSign_append hs
    rintro c' r' ⟨rfl, rfl⟩
    exact digit_not_sign hc
  · intro c' r' heq
    cases hs with
    | none =>
      obtain ⟨rfl, rfl⟩ := List.cons.inj heq
      exact digit_not_space hc
    | plus | minus =>
      obtain ⟨rfl, rfl⟩ := List.cons.inj heq
      decide

theorem isNumeral_value {v : Int} (h : IsNumeral base s v) : v = value base s := by
  cases h with
  | mk hblanks hs hi hne hds =>
    have hafter := numeral_afterSign hblanks hs hi hne hds []
    rw [List.append_nil] at hafter
    have hsub := introduced_subject hi hne hds
    have hall := List.takeWhile_eq_self_iff.mpr hds
    simp only [value, digitsOf, hafter, hsub, hall]

theorem afterSign_split (t : List UInt8) :
    ∃ sign, Sign sign (afterSign t).1 ∧ t = sign ++ (afterSign t).2 := by
  cases t with
  | nil => exact ⟨[], .none, rfl⟩
  | cons c t =>
    rw [afterSign]
    split
    · rename_i hc
      exact ⟨[43], .plus, by rw [hc]; rfl⟩
    · split
      · rename_i hc
        exact ⟨[45], .minus, by rw [hc]; rfl⟩
      · exact ⟨[], .none, rfl⟩

/-- What stands before the digits that a text offers introduces them. -/
theorem subject_introduces (hb : base = 0 ∨ 2 ≤ base)
    (hrun : (subject base t).2.takeWhile (isDigit (subject base t).1) ≠ []) :
    ∃ intro, t = intro ++ (subject base t).2 ∧ Introduces base intro (subject base t).1
      ((subject base t).2.takeWhile (isDigit (subject base t).1)) := by
  by_cases hhex : (base = 0 ∨ base = 16) ∧ hexAhead t = true
  · rw [subject_hex hhex.1 hhex.2]
    match t, hhex.2 with
    | z :: x :: c :: r, h =>
      simp only [hexAhead, Bool.and_eq_true, Bool.or_eq_true, beq_iff_eq] at h
      exact ⟨[z, x], rfl, by rw [h.1.1]; exact .hex hhex.1 h.1.2⟩
  · by_cases hzero : base = 0
    · subst hzero
      have hahead : hexAhead t = false := by simpa using hhex
      rw [subject_zero hahead] at hrun ⊢
      obtain ⟨c, r, hcons⟩ := List.exists_cons_of_ne_nil hrun
      have hhead : (t.takeWhile (isDigit (if t.head? = some 48 then 8 else 10))).head? =
          t.head? := by
        rw [← head_append hrun (t.dropWhile _), List.takeWhile_append_dropWhile]
      refine ⟨[], rfl, ?_⟩
      by_cases h48 : t.head? = some 48
      · simp only [h48, if_true] at hhead ⊢
        exact .octal rfl hhead
      · simp only [h48, if_false] at hhead ⊢
        exact .decimal rfl (by rw [hhead]; exact h48)
    · rw [subject_plain hhex hzero]
      exact ⟨[], rfl, .plain (hb.resolve_left hzero)⟩

theorem reach_zero (h : (subject base t).2.takeWhile (isDigit (subject base t).1) = []) :
    reach base t = 0 := by
  by_cases hhex : (base = 0 ∨ base = 16) ∧ hexAhead t = true
  · rw [subject_hex hhex.1 hhex.2] at h
    match t, hhex.2, h with
    | z :: x :: c :: r, hahead, h =>
      simp only [hexAhead, Bool.and_eq_true] at hahead
      simp [hahead.2] at h
  · have hsame : (subject base t).2 = t := by
      rw [subject, if_neg hhex]
      split <;> rfl
    rw [reach, h, hsame]
    simp

/-- The text behind blanks and a sign. -/
def unsigned (s : List UInt8) : List UInt8 := (afterSign (s.dropWhile isSpace)).2

/-- The longest numeral at the front of a text, if there is one. -/
def front (base : Nat) (s : List UInt8) : List UInt8 :=
  s.take (s.length - (unsigned s).length + reach base (unsigned s))

theorem front_numeral (hb : base = 0 ∨ 2 ≤ base) (hrun : digitsOf base s ≠ []) :
    IsNumeral base (front base s) (value base s) ∧
      (front base s).length = s.length - (unsigned s).length + reach base (unsigned s) := by
  obtain ⟨sign, hsign, hsplit⟩ := afterSign_split (s.dropWhile isSpace)
  obtain ⟨intro, hintro, hi⟩ := subject_introduces hb hrun
  have hcut := List.takeWhile_append_dropWhile (p := isDigit (subject base (unsigned s)).1)
    (l := (subject base (unsigned s)).2)
  have hs : s.takeWhile isSpace ++ (sign ++ (intro ++ (subject base (unsigned s)).2)) = s := by
    rw [unsigned, ← hintro, ← hsplit, List.takeWhile_append_dropWhile]
  have hpre : s.takeWhile isSpace ++ (sign ++ (intro ++ digitsOf base s)) <+: s :=
    ⟨(subject base (unsigned s)).2.dropWhile (isDigit (subject base (unsigned s)).1), by
      rw [List.append_assoc, List.append_assoc, List.append_assoc, digitsOf, ← unsigned, hcut, hs]⟩
  have hlen : (s.takeWhile isSpace ++ (sign ++ (intro ++ digitsOf base s))).length =
      s.length - (unsigned s).length + reach base (unsigned s) := by
    have hall := congrArg List.length hs
    have hrest := congrArg List.length hintro
    simp only [List.length_append, reach, digitsOf, unsigned] at hall hrest ⊢
    omega
  have hfront := List.prefix_iff_eq_take.mp hpre
  rw [hlen, ← front] at hfront
  refine ⟨?_, by rw [← hfront, hlen]⟩
  rw [← hfront]
  exact .mk (fun c hc => List.mem_takeWhile_imp hc) hsign hi hrun
    fun c hc => List.mem_takeWhile_imp hc

/-- A numeral at the front of a text lies in the longest one. -/
theorem numeral_le {p : List UInt8} {v : Int} (hp : p <+: s) (h : IsNumeral base p v) :
    p.length ≤ s.length - (unsigned s).length + reach base (unsigned s) ∧
      0 < reach base (unsigned s) := by
  obtain ⟨rest, rfl⟩ := hp
  cases h with
  | @mk blanks sign intro ds negative radix hblanks hs hi hne hds =>
    have hafter := numeral_afterSign hblanks hs hi hne hds rest
    have hreach := introduced_reach hi hne hds rest
    have hpos := List.length_pos_iff.mpr hne
    have hunsigned : unsigned (blanks ++ (sign ++ (intro ++ ds)) ++ rest) = intro ++ ds ++ rest := by
      rw [unsigned, List.append_assoc, List.append_assoc, hafter]
    rw [hunsigned]
    simp only [List.length_append] at hreach ⊢
    omega

theorem reads_iff {v : Int} (hb : base = 0 ∨ 2 ≤ base) :
    Reads base s v ↔ v = value base s := by
  by_cases hrun : digitsOf base s = []
  · have hnone : ∀ p v', p <+: s → ¬ IsNumeral base p v' := by
      intro p v' hp h
      have hpos := (numeral_le hp h).2
      have hzero : reach base (unsigned s) = 0 := reach_zero hrun
      omega
    have hvalue : value base s = 0 := by
      simp [value, hrun, number, signed]
    rw [hvalue]
    constructor
    · rintro (⟨p, hp, h, _⟩ | ⟨_, hv⟩)
      · exact absurd h (hnone p v hp)
      · exact hv
    · exact fun hv => Or.inr ⟨hnone, hv⟩
  · obtain ⟨hfront, hlen⟩ := front_numeral hb hrun
    have hpre : front base s <+: s := List.take_prefix _ _
    constructor
    · rintro (⟨p, hp, h, hlongest⟩ | ⟨hnone, _⟩)
      · have hle := (numeral_le hp h).1
        have hge := hlongest _ _ hpre hfront
        have hsame : p = front base s := by
          rw [List.prefix_iff_eq_take.mp hp, List.prefix_iff_eq_take.mp hpre]
          congr 1
          omega
        rw [hsame] at h
        rw [isNumeral_value h, isNumeral_value hfront]
      · exact absurd hfront (hnone _ _ hpre)
    · rintro rfl
      refine Or.inl ⟨_, hpre, hfront, fun p' v' hp' h' => ?_⟩
      rw [hlen]
      exact (numeral_le hp' h').1

end Reading

end Numeral
