import Zligc.OsFile
import Zligc.Interleaving

/-!
# Files of bytes with a cursor

A request reads or writes at the cursor, which then stands behind the bytes, or it moves the
cursor or tells where it is. What was written somewhere is read back from there until another
write overlaps it.
-/
namespace RandomAccess

open OsFile Interleaving

/-- An open file: its content, the place of the cursor and the accesses allowed. -/
structure Cursor where
  content : List UInt8
  offset : Nat
  readable : Bool
  writable : Bool
  deriving DecidableEq, Repr

inductive Request where
  | read (n : Nat)
  | write (bytes : List UInt8)
  | seek (p : Nat)
  | skip (amount : Int)
  | tell
  deriving DecidableEq, Repr

inductive Reply where
  | got (bytes : List UInt8)
  | done
  | told (p : Nat)
  | refused
  deriving DecidableEq, Repr

/-- Positions are below this number. -/
def limit : Nat := 0x8000000000000000

/-- What a request gives, and the file after it. -/
def serve : Request → Cursor → Reply × Cursor
  | .read n, c =>
    if c.readable then
      let bytes := (c.content.drop c.offset).take n
      (.got bytes, { c with offset := c.offset + bytes.length })
    else (.refused, c)
  | .write bytes, c =>
    if c.writable then
      (.done, { c with
        content := writeAt c.content c.offset bytes
        offset := c.offset + bytes.length })
    else (.refused, c)
  | .seek p, c => if p < limit then (.done, { c with offset := p }) else (.refused, c)
  | .skip amount, c =>
    if 0 ≤ c.offset + amount ∧ c.offset + amount < limit then
      (.done, { c with offset := (c.offset + amount).toNat })
    else (.refused, c)
  | .tell, c => (.told c.offset, c)

/-- Only a position can be told. -/
def Tellable : Request → Cursor → Prop
  | .tell, c => c.offset < limit
  | _, _ => True

/-- The request writes none of the `n` bytes at `p`. -/
def Spares (p n : Nat) : Request → Cursor → Prop
  | .write bytes, c => c.offset + bytes.length ≤ p ∨ p + n ≤ c.offset
  | _, _ => True

/-- The bytes stand at `p` in the content. -/
def StandsAt (content : List UInt8) (p : Nat) (bytes : List UInt8) : Prop :=
  ∀ i, i < bytes.length → content[p + i]? = bytes[i]?

section Contents

variable {content bytes : List UInt8} {p : Nat}

/-- Bytes that a write does not overlap stay. -/
theorem StandsAt.writeAt (h : StandsAt content p bytes) {q : Nat} {put : List UInt8}
    (hd : q + put.length ≤ p ∨ p + bytes.length ≤ q) :
    StandsAt (writeAt content q put) p bytes := by
  intro i hi
  have hold := h i hi
  have hin : p + i < content.length := by
    by_contra hout
    rw [List.getElem?_eq_none (by omega), List.getElem?_eq_getElem hi] at hold
    cases hold
  rw [← hold, OsFile.writeAt]
  split
  · rfl
  · have hlen : (content.take q ++ List.replicate (q - content.length) 0).length = q := by
      rw [List.length_append, List.length_take, List.length_replicate]
      omega
    rcases hd with hd | hd
    · rw [List.getElem?_append_right (by rw [List.length_append, hlen]; omega),
        List.length_append, hlen, List.getElem?_drop]
      congr 1
      omega
    · rw [List.getElem?_append_left (by rw [List.length_append, hlen]; omega),
        List.getElem?_append_left (by rw [hlen]; omega),
        List.getElem?_append_left (by rw [List.length_take]; omega),
        List.getElem?_take_of_lt (by omega)]

/-- A read where bytes stand gets them. -/
theorem StandsAt.take (h : StandsAt content p bytes) :
    (content.drop p).take bytes.length = bytes := by
  apply List.ext_getElem?
  intro i
  by_cases hi : i < bytes.length
  · rw [List.getElem?_take_of_lt hi, List.getElem?_drop, h i hi]
  · have hlen := List.length_take_le bytes.length (content.drop p)
    rw [List.getElem?_eq_none (by omega), List.getElem?_eq_none (by omega)]

end Contents

section Requests

variable {c : Cursor} {p : Nat} {bytes : List UInt8}

theorem serve_read (h : c.readable = true) (n : Nat) :
    serve (.read n) c = (.got ((c.content.drop c.offset).take n),
      { c with offset := c.offset + ((c.content.drop c.offset).take n).length }) := if_pos h

theorem serve_read_refused (h : ¬ c.readable = true) (n : Nat) :
    serve (.read n) c = (.refused, c) := if_neg h

theorem serve_write (h : c.writable = true) (bytes : List UInt8) :
    serve (.write bytes) c = (.done, { c with
      content := writeAt c.content c.offset bytes
      offset := c.offset + bytes.length }) := if_pos h

theorem serve_write_refused (h : ¬ c.writable = true) (bytes : List UInt8) :
    serve (.write bytes) c = (.refused, c) := if_neg h

theorem serve_seek (h : p < limit) (c : Cursor) :
    serve (.seek p) c = (.done, { c with offset := p }) := if_pos h

theorem serve_seek_refused (h : ¬ p < limit) (c : Cursor) : serve (.seek p) c = (.refused, c) :=
  if_neg h

theorem serve_skip {amount : Int} (h : 0 ≤ c.offset + amount ∧ c.offset + amount < limit) :
    serve (.skip amount) c = (.done, { c with offset := (c.offset + amount).toNat }) := if_pos h

theorem serve_skip_refused {amount : Int}
    (h : ¬ (0 ≤ c.offset + amount ∧ c.offset + amount < limit)) :
    serve (.skip amount) c = (.refused, c) := if_neg h

theorem serve_writable (q : Request) (c : Cursor) : (serve q c).2.writable = c.writable := by
  cases q with
  | tell => rfl
  | read n | write put | seek q | skip amount =>
    rw [serve]
    split
    · rfl
    · rfl

/-- Writing on is writing both at once. -/
theorem serve_write_append (a b : List UInt8) (c : Cursor) :
    (serve (.write b) (serve (.write a) c).2).2 = (serve (.write (a ++ b)) c).2 := by
  by_cases h : c.writable = true
  · rw [serve_write ((serve_writable (.write a) c).trans h), serve_write h, serve_write h]
    simp only [writeAt_append, List.length_append, Nat.add_assoc]
  · rw [serve_write_refused h, serve_write_refused h, serve_write_refused h]

/-- A request leaves the bytes that it spares. -/
theorem StandsAt.serve (h : StandsAt c.content p bytes) {q : Request}
    (hq : Spares p bytes.length q c) : StandsAt (serve q c).2.content p bytes := by
  cases q with
  | read n | seek | skip =>
    rw [RandomAccess.serve]
    split
    · exact h
    · exact h
  | tell => exact h
  | write put =>
    rw [RandomAccess.serve]
    split
    · exact StandsAt.writeAt h hq
    · exact h

theorem StandsAt.state {qs : List Request} (h : StandsAt c.content p bytes)
    (hqs : Legal (Spares p bytes.length) RandomAccess.serve qs c) :
    StandsAt (state RandomAccess.serve qs c).content p bytes := by
  induction qs generalizing c with
  | nil => exact h
  | cons q qs ih => exact ih (h.serve hqs.1) hqs.2

end Requests

end RandomAccess
