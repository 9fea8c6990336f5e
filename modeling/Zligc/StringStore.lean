import Zligc.StringAgree
import Zligc.StringSpans
import Zligc.StringMove
import Zligc.StringCompare
import Zligc.Splice

/-!
# The string functions on a store of strings

A program keeps strings in buffers that do not overlap and points into them. What the functions of
string.zig do to it, and what they answer, is determined by the strings alone: a call that writes
splices one string, a pointer is a place in a buffer, and neither addresses nor the bytes behind a
terminator play a part.
-/
namespace StringStore

open Effect CellMemory Zig ZligcString LexOrder Occurrence Splice Function

variable {ι π π' : Type}

/-- A pointer into a buffer. -/
structure Place (ι : Type) where
  buffer : ι
  offset : Nat
  deriving DecidableEq, Repr

def Place.plus (p : Place ι) (k : Nat) : Place ι := ⟨p.buffer, p.offset + k⟩

/-- The calls of a program, and a store of its own between them. Characters are given as bytes. -/
inductive Call (ι : Type) where
  | assign (dest : Place ι) (b : UInt8)
  | memcpy (dest src : Place ι) (count : Nat)
  | memmove (dest src : Place ι) (count : Nat)
  | memset (dest : Place ι) (ch : UInt8) (count : Nat)
  | strcpy (dest src : Place ι)
  | strncpy (dest src : Place ι) (count : Nat)
  | strcat (dest src : Place ι)
  | strncat (dest src : Place ι) (count : Nat)
  | memcmp (lhs rhs : Place ι) (count : Nat)
  | memchr (ptr : Place ι) (ch : UInt8) (count : Nat)
  | strlen (str : Place ι)
  | strcmp (lhs rhs : Place ι)
  | strcoll (lhs rhs : Place ι)
  | strncmp (lhs rhs : Place ι) (count : Nat)
  | strchr (str : Place ι) (ch : UInt8)
  | strstr (haystack needle : Place ι)
  | strpbrk (dest breakset : Place ι)
  | strspn (dest accept : Place ι)
  | strcspn (dest reject : Place ι)
  deriving DecidableEq, Repr

/-- What a call returns, with pointers of the type `π`. -/
inductive Answer (π : Type) where
  | nothing
  | pointer (p : Option π)
  | size (n : Nat)
  | order (r : Int32)
  deriving DecidableEq, Repr

def Answer.map (f : π → π') : Answer π → Answer π'
  | .nothing => .nothing
  | .pointer p => .pointer (p.map f)
  | .size n => .size n
  | .order r => .order r

/-- Where a place is when the buffers are at `d`. -/
def addr (d : ι → Nat) (p : Place ι) : Nat := d p.buffer + p.offset

/-- Run a function that returns its destination. -/
def returned (x : Run Mem Nat) : Run Mem (Answer Nat) := (fun p => .pointer (some p)) <$> x

def Call.run (d : ι → Nat) : Call ι → Run Mem (Answer Nat)
  | .assign dest b => (fun _ => .nothing) <$> (store (addr d dest) 0 b : Run Mem Unit)
  | .memcpy dest src count => returned (ZligcString.memcpy (addr d dest) (addr d src) count)
  | .memmove dest src count => returned (ZligcString.memmove (addr d dest) (addr d src) count)
  | .memset dest ch count => returned (ZligcString.memset (addr d dest) (widen ch) count)
  | .strcpy dest src => returned (ZligcString.strcpy (addr d dest) (addr d src))
  | .strncpy dest src count => returned (ZligcString.strncpy (addr d dest) (addr d src) count)
  | .strcat dest src => returned (ZligcString.strcat (addr d dest) (addr d src))
  | .strncat dest src count => returned (ZligcString.strncat (addr d dest) (addr d src) count)
  | .memcmp lhs rhs count => .order <$> ZligcString.memcmp (addr d lhs) (addr d rhs) count
  | .memchr ptr ch count => .pointer <$> ZligcString.memchr (addr d ptr) (widen ch) count
  | .strlen str => .size <$> ZligcString.strlen (addr d str)
  | .strcmp lhs rhs => .order <$> ZligcString.strcmp (addr d lhs) (addr d rhs)
  | .strcoll lhs rhs => .order <$> ZligcString.strcoll (addr d lhs) (addr d rhs)
  | .strncmp lhs rhs count => .order <$> ZligcString.strncmp (addr d lhs) (addr d rhs) count
  | .strchr str ch => .pointer <$> ZligcString.strchr (addr d str) (widen ch)
  | .strstr haystack needle => .pointer <$> ZligcString.strstr (addr d haystack) (addr d needle)
  | .strpbrk dest breakset => .pointer <$> ZligcString.strpbrk (addr d dest) (addr d breakset)
  | .strspn dest accept => .size <$> ZligcString.strspn (addr d dest) (addr d accept)
  | .strcspn dest reject => .size <$> ZligcString.strcspn (addr d dest) (addr d reject)

/-- Perform the calls in order and collect what they return. -/
def runCalls (d : ι → Nat) : List (Call ι) → Run Mem (List (Answer Nat))
  | [] => pure []
  | c :: calls => do
    let r ← c.run d
    let rs ← runCalls d calls
    return r :: rs

section Meaning

variable (S : ι → List UInt8)

/-- The string that a pointer points to. -/
def stringAt (p : Place ι) : List UInt8 := (S p.buffer).drop p.offset

/-- The terminator of the string in a buffer. -/
def ending (p : Place ι) : Place ι := ⟨p.buffer, (S p.buffer).length⟩

/-- The place where a call writes, and the bytes. -/
def Call.edit : Call ι → Option (Place ι × List UInt8)
  | .assign dest b => some (dest, [b])
  | .memcpy dest src count | .memmove dest src count =>
    some (dest, (stringAt S src ++ [0]).take count)
  | .memset dest ch count => some (dest, List.replicate count ch)
  | .strcpy dest src => some (dest, stringAt S src ++ [0])
  | .strncpy dest src count => some (dest, (stringAt S src).take count ++
      List.replicate (count - (stringAt S src).length) 0)
  | .strcat dest src => some (ending S dest, stringAt S src ++ [0])
  | .strncat dest src count => some (ending S dest, (stringAt S src).take count ++ [0])
  | _ => none

/-- The strings after the call. -/
def Call.next [DecidableEq ι] (c : Call ι) : ι → List UInt8 :=
  match c.edit S with
  | some (p, bytes) => update S p.buffer (splice (S p.buffer) p.offset bytes)
  | none => S

/-- The place of the first `c` in what stands at `p`. -/
def find (p : Place ι) (xs : List UInt8) (c : UInt8) : Option (Place ι) :=
  if c ∈ xs then some (p.plus (xs.idxOf c)) else none

/-- How many of the first bytes of a string are in the set, or are not. -/
def span (s set : List UInt8) (inside : Bool) : Nat :=
  (s.takeWhile fun c => decide (c ∈ set) == inside).length

/-- What the call answers. -/
def Call.answer : Call ι → Answer (Place ι)
  | .assign _ _ => .nothing
  | .memcpy dest _ _ | .memmove dest _ _ | .memset dest _ _ | .strcpy dest _ | .strncpy dest _ _
  | .strcat dest _ | .strncat dest _ _ => .pointer (some dest)
  | .memcmp lhs rhs count => .order (outcome (threeWay ((stringAt S lhs ++ [0]).take count)
      ((stringAt S rhs ++ [0]).take count)))
  | .memchr ptr ch count => .pointer (find ptr ((stringAt S ptr ++ [0]).take count) ch)
  | .strlen str => .size (stringAt S str).length
  | .strcmp lhs rhs | .strcoll lhs rhs =>
    .order (outcome (threeWay (stringAt S lhs) (stringAt S rhs)))
  | .strncmp lhs rhs count =>
    let l := (stringAt S lhs).take count
    let r := (stringAt S rhs).take count
    .order (if l <+: r ∨ r <+: l then 0 else outcome (threeWay l r))
  | .strchr str ch => .pointer (find str (stringAt S str ++ [0]) ch)
  | .strstr haystack needle =>
    .pointer ((locate (stringAt S needle) (stringAt S haystack)).map haystack.plus)
  | .strpbrk dest breakset =>
    let k := span (stringAt S dest) (stringAt S breakset) false
    .pointer (if k < (stringAt S dest).length then some (dest.plus k) else none)
  | .strspn dest accept => .size (span (stringAt S dest) (stringAt S accept) true)
  | .strcspn dest reject => .size (span (stringAt S dest) (stringAt S reject) false)

end Meaning

/-- The pointers whose strings a call reads. -/
def Call.reads : Call ι → List (Place ι)
  | .assign _ _ | .memset _ _ _ => []
  | .memcpy _ src _ | .memmove _ src _ | .strcpy _ src | .strncpy _ src _ => [src]
  | .strcat dest src | .strncat dest src _ => [dest, src]
  | .memchr ptr _ _ => [ptr]
  | .strlen str | .strchr str _ => [str]
  | .memcmp lhs rhs _ | .strcmp lhs rhs | .strcoll lhs rhs | .strncmp lhs rhs _ => [lhs, rhs]
  | .strstr p q | .strpbrk p q | .strspn p q | .strcspn p q => [p, q]

/-- The functions on memory are given no more bytes of a string than it and its terminator have. -/
def Call.Counted (S : ι → List UInt8) : Call ι → Prop
  | .memcpy _ p count | .memmove _ p count | .memchr p _ count => count ≤ (stringAt S p).length + 1
  | .memcmp p q count => count ≤ (stringAt S p).length + 1 ∧ count ≤ (stringAt S q).length + 1
  | _ => True

/-- Only memmove reads the buffer that it writes. -/
def Call.Separate : Call ι → Prop
  | .memcpy dest src _ | .strcpy dest src | .strncpy dest src _ | .strcat dest src
  | .strncat dest src _ => dest.buffer ≠ src.buffer
  | _ => True

/-- What the C interface asks of a call: its pointers point into strings, and what it writes fits the
buffer and leaves a string there. -/
structure Call.Allowed (size : ι → Nat) (S : ι → List UInt8) (c : Call ι) : Prop where
  reads : ∀ p ∈ c.reads, p.offset ≤ (S p.buffer).length
  counted : c.Counted S
  separate : c.Separate
  fits : ∀ p bytes, c.edit S = some (p, bytes) →
    Fits (size p.buffer) (S p.buffer) p.offset bytes

section Places

variable {d size : ι → Nat} {S : ι → List UInt8} {m : Mem} {p q : Place ι} {bytes : List UInt8}
  {c : Call ι}

theorem target_mapped (h : Family d size S m)
    (hfit : Fits (size p.buffer) (S p.buffer) p.offset bytes) :
    Mapped m (addr d p) bytes.length := by
  have hroom := hfit.room
  exact (h.keeps p.buffer).mapped.part (Nat.le_add_right _ _) (by unfold addr; omega)

/-- A string is apart from what is written to another buffer. -/
theorem source_apart (h : Family d size S m) (hne : p.buffer ≠ q.buffer)
    (hq : q.offset ≤ (S q.buffer).length)
    (hfit : Fits (size p.buffer) (S p.buffer) p.offset bytes) :
    Apart (addr d q) ((stringAt S q).length + 1) (addr d p) bytes.length := by
  have hroom := hfit.room
  have hstring := (h.keeps q.buffer).room
  intro i hi j hj he
  rw [stringAt, List.length_drop] at hi
  unfold addr at he
  exact h.apart q.buffer p.buffer hne.symm (q.offset + i) (by omega) (p.offset + j) (by omega)
    (by omega)

theorem ending_addr (hp : p.offset ≤ (S p.buffer).length) :
    addr d (ending S p) = addr d p + (stringAt S p).length := by
  rw [addr, addr, ending, stringAt, List.length_drop]
  show d p.buffer + (S p.buffer).length = _
  omega

theorem addr_plus (d : ι → Nat) (p : Place ι) (k : Nat) : addr d (p.plus k) = addr d p + k :=
  (Nat.add_assoc (d p.buffer) p.offset k).symm

theorem located_addr (d : ι → Nat) (p : Place ι) (o : Option Nat) :
    (o.map p.plus).map (addr d) = o.map (addr d p + ·) := by
  cases o with
  | none => rfl
  | some k => exact congrArg some (addr_plus d p k)

theorem find_addr (d : ι → Nat) (p : Place ι) (xs : List UInt8) (c : UInt8) :
    (find p xs c).map (addr d) = addressOf (addr d p) xs c := by
  unfold find addressOf
  split
  · rw [Option.map_some, addr_plus]
  · rfl

theorem span_inside (s set : List UInt8) :
    span s set true = (s.takeWhile fun c => decide (c ∈ set)).length := by
  simp [span]

theorem span_outside (s set : List UInt8) :
    span s set false = (s.takeWhile fun c => !decide (c ∈ set)).length := by
  simp [span]

/-- The bytes that memcpy and memmove are given. -/
theorem counted_length {s : List UInt8} {count : Nat} (h : count ≤ s.length + 1) :
    ((s ++ [0]).take count).length = count := by
  rw [List.length_take, List.length_append, List.length_singleton, Nat.min_eq_left h]

/-- A call that writes writes its bytes and returns its destination. -/
theorem edit_run (h : Family d size S m) (hlow : ∀ i, d i + size i < 0x10000000000000000)
    (hc : c.Allowed size S) {p : Place ι} {bytes : List UInt8}
    (hedit : c.edit S = some (p, bytes)) :
    (c.run d).run m = .ok ((c.answer S).map (addr d)) (write m (addr d p) bytes) := by
  have hfit := hc.fits p bytes hedit
  have hmapped := target_mapped h hfit
  have hreads : ∀ q ∈ c.reads, StringAt m (addr d q) (stringAt S q) :=
    fun q hq => h.suffix (hc.reads q hq)
  cases c with
  | assign dest b =>
    cases hedit
    have hcell : (m.cell (addr d p + 0)).isSome := hmapped 0 Nat.one_pos
    exact map_ok (store_run b hcell) _
  | memset dest ch count =>
    cases hedit
    rw [List.length_replicate] at hmapped
    exact map_ok (memset_run ch hmapped) _
  | memcpy dest src count =>
    cases hedit
    have hlen := counted_length hc.counted
    have hapart := source_apart h hc.separate (hc.reads src (.head _)) hfit
    have hrun := memcpy_run ((hreads src (.head _)).bytes.take count) hmapped
      (hapart.mono (by rw [hlen]; exact hc.counted) (Nat.le_refl _))
    rw [hlen] at hrun
    exact map_ok hrun _
  | memmove dest src count =>
    cases hedit
    have hlen := counted_length hc.counted
    have hstring := (h.keeps src.buffer).room
    have hsource := hlow src.buffer
    have htarget := hlow p.buffer
    have hroom := hfit.room
    have hcounted : count ≤ (stringAt S src).length + 1 := hc.counted
    have hoffset := hc.reads src (.head _)
    rw [stringAt, List.length_drop] at hcounted
    have hrun := memmove_run ((hreads src (.head _)).bytes.take count) hmapped
      (by unfold addr; omega) (by rw [hlen]; unfold addr; omega)
    rw [hlen] at hrun
    exact map_ok hrun _
  | strcpy dest src =>
    cases hedit
    have hapart := source_apart h hc.separate (hc.reads src (.head _)) hfit
    rw [List.length_append, List.length_singleton] at hmapped hapart
    exact map_ok (strcpy_run (hreads src (.head _)) hmapped hapart) _
  | strncpy dest src count =>
    cases hedit
    have hapart := source_apart h hc.separate (hc.reads src (.head _)) hfit
    have hlen : ((stringAt S src).take count ++
        List.replicate (count - (stringAt S src).length) 0).length = count := by
      rw [List.length_append, List.length_take, List.length_replicate]
      omega
    rw [hlen] at hmapped hapart
    exact map_ok (strncpy_run (hreads src (.head _)) hmapped hapart) _
  | strcat dest src =>
    cases hedit
    have hplace := ending_addr (d := d) (hc.reads dest (.head _))
    have hapart := source_apart (p := ending S dest) h hc.separate
      (hc.reads src (.tail _ (.head _))) hfit
    rw [List.length_append, List.length_singleton, hplace] at hmapped hapart
    rw [hplace]
    exact map_ok (strcat_run (hreads dest (.head _)) (hreads src (.tail _ (.head _))) hmapped
      hapart) _
  | strncat dest src count =>
    cases hedit
    have hplace := ending_addr (d := d) (hc.reads dest (.head _))
    have hapart := source_apart (p := ending S dest) h hc.separate
      (hc.reads src (.tail _ (.head _))) hfit
    rw [List.length_append, List.length_take, List.length_singleton, hplace] at hmapped hapart
    rw [hplace]
    exact map_ok (strncat_run (hreads dest (.head _)) (hreads src (.tail _ (.head _))) hmapped
      hapart) _
  | _ => cases hedit

/-- A call that does not write leaves memory as it is. -/
theorem observation_run (h : Family d size S m) (hc : c.Allowed size S) (hedit : c.edit S = none) :
    (c.run d).run m = .ok ((c.answer S).map (addr d)) m := by
  have hreads : ∀ q ∈ c.reads, StringAt m (addr d q) (stringAt S q) :=
    fun q hq => h.suffix (hc.reads q hq)
  cases c with
  | memcmp lhs rhs count =>
    obtain ⟨hl, hr⟩ := hc.counted
    have hleft : count ≤ (stringAt S lhs ++ [0]).length := by simpa using hl
    have hright : count ≤ (stringAt S rhs ++ [0]).length := by simpa using hr
    have hrun := memcmp_run (hreads lhs (.head _)).bytes (hreads rhs (.tail _ (.head _))).bytes
      hleft hright
    exact map_ok hrun _
  | memchr ptr ch count =>
    have hrun := memchr_run ((hreads ptr (.head _)).bytes.take count) ch
    rw [counted_length hc.counted, ← find_addr] at hrun
    exact map_ok hrun _
  | strlen str => exact map_ok (strlen_run (hreads str (.head _))) _
  | strcmp lhs rhs | strcoll lhs rhs =>
    exact map_ok (strcmp_run (hreads lhs (.head _)) (hreads rhs (.tail _ (.head _)))) _
  | strncmp lhs rhs count =>
    exact map_ok (strncmp_run count (hreads lhs (.head _)) (hreads rhs (.tail _ (.head _)))) _
  | strchr str ch =>
    have hrun := strchr_run (hreads str (.head _)) ch
    rw [← find_addr] at hrun
    exact map_ok hrun _
  | strstr haystack needle =>
    have hrun := strstr_run (hreads haystack (.head _)) (hreads needle (.tail _ (.head _)))
    rw [← located_addr] at hrun
    exact map_ok hrun _
  | strpbrk dest breakset =>
    have hrun := strpbrk_run (hreads dest (.head _)) (hreads breakset (.tail _ (.head _)))
    rw [← span_outside, ← addr_plus, ← Option.map_some (f := addr d), ← Option.map_none,
      ← apply_ite] at hrun
    exact map_ok hrun _
  | strspn dest accept =>
    have hrun := strspn_run (hreads dest (.head _)) (hreads accept (.tail _ (.head _)))
    rw [← span_inside] at hrun
    exact map_ok hrun _
  | strcspn dest reject =>
    have hrun := strcspn_run (hreads dest (.head _)) (hreads reject (.tail _ (.head _)))
    rw [← span_outside] at hrun
    exact map_ok hrun _
  | _ => cases hedit

end Places

section Calls

variable [DecidableEq ι] {d size : ι → Nat} {S : ι → List UInt8} {m m' : Mem} {c : Call ι}

/-- A call does to memory what it does to the strings. -/
def Follows (d size : ι → Nat) (S : ι → List UInt8) (m : Mem) (c : Call ι) : Prop :=
  ∃ m', (c.run d).run m = .ok ((c.answer S).map (addr d)) m' ∧ Family d size (c.next S) m' ∧
    Beyond d size m m'

theorem call_follows (h : Family d size S m) (hlow : ∀ i, d i + size i < 0x10000000000000000)
    (hc : c.Allowed size S) : Follows d size S m c := by
  cases hedit : c.edit S with
  | none =>
    refine ⟨m, observation_run h hc hedit, ?_, .refl d size m⟩
    rw [Call.next, hedit]
    exact h
  | some e =>
    obtain ⟨hfamily, hbeyond⟩ := h.write (hc.fits _ _ hedit)
    refine ⟨_, edit_run h hlow hc hedit, ?_, hbeyond⟩
    rw [Call.next, hedit]
    exact hfamily

/-- Every call of the run is allowed where it is made. -/
def Legal (size : ι → Nat) : (ι → List UInt8) → List (Call ι) → Prop
  | _, [] => True
  | S, c :: calls => c.Allowed size S ∧ Legal size (c.next S) calls

/-- What the calls of a run answer. -/
def answers : (ι → List UInt8) → List (Call ι) → List (Answer (Place ι))
  | _, [] => []
  | S, c :: calls => c.answer S :: answers (c.next S) calls

/-- The strings after a run. -/
def final : (ι → List UInt8) → List (Call ι) → ι → List UInt8
  | S, [] => S
  | S, c :: calls => final (c.next S) calls

/-- In any run of allowed calls memory goes on holding the strings that the calls denote, each in its
buffer and with its terminator. What the calls return is what they answer, wherever the buffers are,
and nothing outside them changes. -/
theorem calls_follow {calls : List (Call ι)} (h : Family d size S m)
    (hlow : ∀ i, d i + size i < 0x10000000000000000) (hlegal : Legal size S calls) :
    ∃ m', (runCalls d calls).run m = .ok ((answers S calls).map (·.map (addr d))) m' ∧
      Family d size (final S calls) m' ∧ Beyond d size m m' := by
  induction calls generalizing S m with
  | nil => exact ⟨m, rfl, h, .refl d size m⟩
  | cons c calls ih =>
    obtain ⟨m₁, hrun, hfamily, hbeyond⟩ := call_follows h hlow hlegal.1
    obtain ⟨m₂, hruns, hfinal, hbeyond₂⟩ := ih hfamily hlegal.2
    refine ⟨m₂, ?_, hfinal, hbeyond.trans hbeyond₂⟩
    rw [runCalls, bind_ok hrun, bind_ok hruns]
    rfl

end Calls

/-- "ab" in eight bytes and "c" in the four behind them. -/
def twoMem : Mem :=
  image 0x40000 [97, 98, 0, 7, 7, 7, 7, 7, 99, 0, 7, 7] (by decide) (by decide)

def twoPlaces : Bool → Nat
  | false => 0x40000
  | true => 0x40008

def twoSizes : Bool → Nat
  | false => 8
  | true => 4

def twoStrings : Bool → List UInt8
  | false => [97, 98]
  | true => [99]

theorem two_family : Family twoPlaces twoSizes twoStrings twoMem := by
  constructor
  · rintro (_ | _) <;> exact ⟨⟨by decide, by decide⟩, by decide, by decide⟩
  · rintro (_ | _) (_ | _) hne
    · exact absurd rfl hne
    · decide
    · decide
    · exact absurd rfl hne

theorem calls_follow_example :
    ∃ m', (runCalls twoPlaces [.strcat ⟨false, 0⟩ ⟨true, 0⟩, .strchr ⟨false, 1⟩ 99]).run twoMem =
        .ok [.pointer (some 0x40000), .pointer (some 0x40002)] m' ∧
      Family twoPlaces twoSizes
        (final twoStrings [.strcat ⟨false, 0⟩ ⟨true, 0⟩, .strchr ⟨false, 1⟩ 99]) m' ∧
      Beyond twoPlaces twoSizes twoMem m' := by
  refine calls_follow two_family (by rintro (_ | _) <;> decide) ⟨⟨?_, trivial, nofun, ?_⟩,
    ⟨?_, trivial, trivial, nofun⟩, trivial⟩
  · decide
  · intro p bytes hedit
    cases hedit
    exact ⟨by decide, by decide, by decide⟩
  · decide

end StringStore
