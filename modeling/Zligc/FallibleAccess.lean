import Zligc.RandomAccess
import Zligc.Traces

/-!
# Files with a cursor on a system that may fail

A read may deliver less than there is, and whatever fails may have moved some bytes before. What
is written is written in the order of the requests all the same, and what is read is read in the
order of the file.
-/
namespace RandomAccess

open OsFile Traces

/-- A request may be served, a read may fall short, and any request may fail. -/
inductive MayServe : Request → Cursor → Reply → Cursor → Prop where
  | served (q : Request) (c : Cursor) : MayServe q c (serve q c).1 (serve q c).2
  | short {n : Nat} {c : Cursor} {bytes : List UInt8} : c.readable = true →
      bytes <+: (c.content.drop c.offset).take n →
      (bytes = [] → (c.content.drop c.offset).take n = []) →
      MayServe (.read n) c (.got bytes) { c with offset := c.offset + bytes.length }
  | lost {n : Nat} {c : Cursor} {bytes : List UInt8} : c.readable = true →
      bytes <+: (c.content.drop c.offset).take n →
      MayServe (.read n) c .refused { c with offset := c.offset + bytes.length }
  | cut {bytes part : List UInt8} {c : Cursor} : c.writable = true → part <+: bytes →
      MayServe (.write bytes) c .refused { c with
        content := writeAt c.content c.offset part
        offset := c.offset + part.length }
  | failed (q : Request) (c : Cursor) : MayServe q c .refused c

/-- The bytes that a reply delivers. -/
def Reply.bytes : Reply → List UInt8
  | .got bytes => bytes
  | _ => []

section Traces

variable {c c' : Cursor} {bytes : List UInt8} {n : Nat} {r : Reply} {rs : List Reply}

/-- The file after bytes were put down at the cursor. -/
def Cursor.put (c : Cursor) (bytes : List UInt8) : Cursor :=
  { c with content := writeAt c.content c.offset bytes, offset := c.offset + bytes.length }

theorem serve_put (h : c.writable = true) (bytes : List UInt8) :
    serve (.write bytes) c = (.done, c.put bytes) := serve_write h bytes

/-- A write puts down a part from the beginning of its bytes, and all of them if it is done. -/
theorem MayServe.write (h : MayServe (.write bytes) c r c') :
    ∃ part, part <+: bytes ∧ c' = c.put part ∧
      ((r = .done ∧ c.writable = true ∧ part = bytes) ∨
        (r = .refused ∧ (c.writable = true ∨ part = []))) := by
  have hnothing : ([] : List UInt8) <+: bytes := List.nil_prefix
  cases h with
  | served =>
    by_cases hw : c.writable = true
    · rw [serve_put hw]
      exact ⟨bytes, List.prefix_refl bytes, rfl, Or.inl ⟨rfl, hw, rfl⟩⟩
    · rw [serve_write_refused hw]
      exact ⟨[], hnothing, rfl, Or.inr ⟨rfl, Or.inr rfl⟩⟩
  | cut hw hpart => exact ⟨_, hpart, rfl, Or.inr ⟨rfl, Or.inl hw⟩⟩
  | failed => exact ⟨[], hnothing, rfl, Or.inr ⟨rfl, Or.inr rfl⟩⟩

/-- A read moves the cursor over bytes of the file, and they are what it delivers unless it is
refused. -/
theorem MayServe.read (h : MayServe (.read n) c r c') :
    c'.content = c.content ∧ ∃ bytes, bytes <+: (c.content.drop c.offset).take n ∧
      c'.offset = c.offset + bytes.length ∧ (r = .got bytes ∨ r = .refused) := by
  have hnothing : ([] : List UInt8) <+: (c.content.drop c.offset).take n := List.nil_prefix
  cases h with
  | served =>
    by_cases hr : c.readable = true
    · rw [serve_read hr]
      exact ⟨rfl, _, List.prefix_refl _, rfl, Or.inl rfl⟩
    · rw [serve_read_refused hr]
      exact ⟨rfl, [], hnothing, rfl, Or.inr rfl⟩
  | short _ hbytes _ => exact ⟨rfl, _, hbytes, rfl, Or.inl rfl⟩
  | lost _ hbytes => exact ⟨rfl, _, hbytes, rfl, Or.inr rfl⟩
  | failed => exact ⟨rfl, [], hnothing, rfl, Or.inr rfl⟩

end Traces

end RandomAccess
