import Zligc.StdioAccess

/-!
# Streams in turns

Streams on different descriptors and files do not interfere: in every order of their calls each
of them is a file of its own, and what was written to one is read back from it.
-/
namespace Stdio

open Effect CellMemory Zig Zligc OsFile Function
open RandomAccess
open Interleaving (own performed replies state Legal Serves)

/-- The streams in `S` are open on files of their own, as `x` says, and what is kept of `m` is
still in memory. -/
structure Shown (S : Stream → Prop) (m : Mem) (kept : Nat → Prop) (undefinedByte : UInt8)
    (w : World) (x : Stream → Cursor) : Prop where
  regular : Regular w.kernel.policy
  retains : Retains kept m w.mem
  undefinedByte : w.undefinedByte = undefinedByte
  shows : ∀ fd, S fd → Shows w fd (x fd)
  separate : ∀ fd fd', S fd → S fd' → fd ≠ fd' → Separate w fd fd'

/-- What an access returns and the file behind the stream after it. -/
def Access.serve (undefinedByte : UInt8) (m : Mem) (a : Access) (c : Cursor) :
    (Int × List UInt8) × Cursor :=
  (a.answer undefinedByte (RandomAccess.serve (a.request m) c).1,
    (RandomAccess.serve (a.request m) c).2)

/-- The access is one to a stream in `S`, and its arguments are in order. -/
def Access.Allowed (S : Stream → Prop) (m : Mem) (kept : Nat → Prop) (fd : Stream) (a : Access)
    (c : Cursor) : Prop :=
  S fd ∧ a.InOrder m kept ∧ Tellable (a.request m) c

section Interleavings

variable {S : Stream → Prop} {m : Mem} {kept : Nat → Prop} {undefinedByte : UInt8} {w : World}
  {fd : Stream} {x : Stream → Cursor}

theorem Shows.beside {fd' : Stream} {c : Cursor} {w' : World} (h : Shows w fd' c)
    (hs : Separate w fd fd') (hb : Beside fd w w') : Shows w' fd' c := by
  obtain ⟨h', d', hopen, rfl⟩ := h
  obtain ⟨hopen', hsame⟩ := hs.other hb hopen
  refine ⟨h', d', hopen', ?_⟩
  rw [cursor, hsame]
  rfl

/-- Of three streams the use of the first leaves the other two separate. -/
theorem Separate.others {fd₁ fd₂ : Stream} {w' : World} (h : Separate w fd₁ fd₂)
    (h₁ : Separate w fd fd₁) (h₂ : Separate w fd fd₂) (hb : Beside fd w w') :
    Separate w' fd₁ fd₂ := by
  obtain ⟨k₁, d₁, k₂, d₂, hopen₁, hopen₂, hne, hfile⟩ := h
  exact ⟨k₁, d₁, k₂, d₂, (h₁.other hb hopen₁).1, (h₂.other hb hopen₂).1, hne, hfile⟩

theorem Shown.became {w' : World} {c : Cursor} (h : Shown S m kept undefinedByte w x) (hfd : S fd)
    (hb : Became w w' fd c) (hm : Retains kept w.mem w'.mem) :
    Shown S m kept undefinedByte w' (update x fd c) := by
  constructor
  · rw [hb.policy]
    exact h.regular
  · exact h.retains.trans hm
  · exact hb.undefinedByte.trans h.undefinedByte
  · intro fd' hfd'
    by_cases he : fd' = fd
    · subst he
      rw [update_self]
      exact hb.shows
    · rw [update_of_ne he]
      exact (h.shows fd' hfd').beside (h.separate fd fd' hfd hfd' (Ne.symm he)) hb.beside
  · intro fd₁ fd₂ h₁ h₂ hne
    by_cases he₁ : fd₁ = fd
    · subst he₁
      exact (h.separate fd₁ fd₂ h₁ h₂ hne).beside hb.beside
    · have hsep₁ := h.separate fd fd₁ hfd h₁ (Ne.symm he₁)
      by_cases he₂ : fd₂ = fd
      · subst he₂
        exact (hsep₁.beside hb.beside).symm
      · exact (h.separate fd₁ fd₂ h₁ h₂ hne).others hsep₁
          (h.separate fd fd₂ hfd h₂ (Ne.symm he₂)) hb.beside

end Interleavings

end Stdio
