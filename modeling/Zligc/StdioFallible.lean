import Mathlib.Tactic.Choose
import Zligc.StdioTurns
import Zligc.FallibleAccess

/-!
# Streams on a system that may fail

The same accesses on any system: an operation may fail, and a read may deliver less than there is.
Every stream still answers as some run of a file of its own with a cursor that may fail, in every
order of the accesses and wherever a run is stopped.
-/
namespace Stdio

open Effect CellMemory Zig Zligc OsFile Function
open RandomAccess Interleaving Traces

/-- What a read replies that has moved some bytes. -/
def Reply.delivered (bytes : List UInt8) (success : Bool) : Reply :=
  if success then .got bytes else .refused

section Kernels

variable {k : Kernel} {h : Int32} {d : Description}

end Kernels

/-- From `w` to `w'` only the file behind `h` has changed, to `c`, and the handle was looked up. -/
structure Changed (w w' : World) (h : Int32) (d : Description) (c : Cursor) : Prop where
  turned : Turned w.kernel w'.kernel h d c
  records : w'.records = (looked w).records
  resolved : w'.resolved = (looked w).resolved
  undefinedByte : w'.undefinedByte = w.undefinedByte

section Handles

variable {w w' w'' : World} {fd : Stream} {h : Int32} {d : Description} {c c' : Cursor}

theorem Turned.trans {k k' k'' : Kernel} (ht : Turned k k' h d c)
    (ht' : Turned k' k'' h { d with offset := c.offset } c') : Turned k k'' h d c' := by
  constructor
  · rw [ht'.table, ht.table, update_idem]
  · rw [ht'.contents, ht.contents, update_idem]
  · exact ht'.policy.trans ht.policy
  · exact ht'.readable
  · exact ht'.writable

/-- The file that a kernel shows behind a handle that has turned. -/
theorem Turned.cursor_eq {k k' : Kernel} (ht : Turned k k' h d c) :
    cursor k' { d with offset := c.offset } = c := by
  obtain ⟨content, offset, readable, writable⟩ := c
  obtain rfl : readable = d.readable := ht.readable
  obtain rfl : writable = d.writable := ht.writable
  simp only [cursor, ht.contents, update_self]

/-- An operation on the handle of a stream after its lookup. -/
theorem Held.turned {β : Type} {f : Kernel → Int32 → Kernel × β} (hw : Held w fd h d)
    (hk : Turned w.kernel (f w.kernel h).1 h d c) :
    ∃ w', (File.apply fd f).run (Stdio.looked w) = .ok (f w.kernel h).2 w' ∧ w'.mem = w.mem ∧
      Changed w w' h d c := by
  have hrun := hw.looked.apply f
  rw [looked_kernel] at hrun
  exact ⟨_, hrun, looked_mem w, hk, rfl, rfl, looked_undefinedByte w⟩

theorem Held.changed (hw : Held w fd h d) (hc : Changed w w' h d c) :
    Held w' fd h { d with offset := c.offset } := by
  refine hw.looked.moved (by rw [hc.records]) hc.resolved ?_
  rw [hc.turned.table, looked_kernel]

/-- A second operation needs no other lookup. -/
theorem Changed.again {β : Type} {f : Kernel → Int32 → Kernel × β} (hw : Held w fd h d)
    (hc : Changed w w' h d c)
    (hk : Turned w'.kernel (f w'.kernel h).1 h { d with offset := c.offset } c') :
    ∃ w'', (File.apply fd f).run w' = .ok (f w'.kernel h).2 w'' ∧ w''.mem = w'.mem ∧
      Changed w w'' h d c' := by
  refine ⟨_, (hw.changed hc).apply f, rfl, ?_⟩
  exact ⟨hc.turned.trans hk, hc.records, hc.resolved, hc.undefinedByte⟩

theorem Changed.memory (hc : Changed w w' h d c) (m : Mem) : Changed w { w' with mem := m } h d c :=
  ⟨hc.turned, hc.records, hc.resolved, hc.undefinedByte⟩

end Handles

/-- The accesses that a failing system can stop. -/
def Access.Stops : Access → Prop
  | .rewind | .ftell => True
  | _ => False

section Accesses

variable {w : World} {fd : Stream} {h : Int32} {d : Description} {kept : Nat → Prop}

end Accesses

/-- The streams of `S` are held, as the files `x` and each on a descriptor and a file of its own. -/
structure Spread (S : Stream → Prop) (m : Mem) (kept : Nat → Prop) (undefinedByte : UInt8)
    (w : World) (x : Stream → Cursor) : Prop where
  retains : Retains kept m w.mem
  undefinedByte : w.undefinedByte = undefinedByte
  held : ∀ fd, S fd → ∃ h d, Held w fd h d ∧ cursor w.kernel d = x fd
  apart : ∀ fd fd' h h' d d', S fd → S fd' → fd ≠ fd' → Held w fd h d → Held w fd' h' d' →
    h ≠ h' ∧ d.inode ≠ d'.inode

section Spreads

variable {S : Stream → Prop} {m : Mem} {kept : Nat → Prop} {undefinedByte : UInt8} {w w' : World}
  {fd fd' : Stream} {h h' : Int32} {d d' : Description} {c : Cursor} {x : Stream → Cursor}

/-- Another stream is held as before where one has changed. -/
theorem Held.unchanged (hw' : Held w fd' h' d') (hc : Changed w w' h d c) (hne : h' ≠ h) :
    Held w' fd' h' d' := by
  constructor
  · rw [hc.records]
    exact hw'.looked.record
  · intro n hn
    rw [hc.resolved]
    exact hw'.looked.own n hn
  · rw [hc.turned.table, update_of_ne hne]
    exact hw'.described

/-- Where one stream has changed, the others are held as the same files. -/
theorem Spread.other (hs : Spread S m kept undefinedByte w x) (hfd : S fd) (hfd' : S fd')
    (hne : fd' ≠ fd) (hw : Held w fd h d) (hc : Changed w w' h d c) :
    ∃ h' d', Held w fd' h' d' ∧ Held w' fd' h' d' ∧ cursor w'.kernel d' = x fd' := by
  obtain ⟨h', d', hw', hcursor⟩ := hs.held fd' hfd'
  obtain ⟨hhandle, hfile⟩ := hs.apart fd fd' h h' d d' hfd hfd' (Ne.symm hne) hw hw'
  refine ⟨h', d', hw', hw'.unchanged hc (Ne.symm hhandle), ?_⟩
  rw [← hcursor, cursor, cursor, hc.turned.contents, update_of_ne (Ne.symm hfile)]

theorem Spread.changed (hs : Spread S m kept undefinedByte w x) (hfd : S fd) (hw : Held w fd h d)
    (hc : Changed w w' h d c) (hm : Retains kept w.mem w'.mem) :
    Spread S m kept undefinedByte w' (update x fd c) := by
  constructor
  · exact hs.retains.trans hm
  · exact hc.undefinedByte.trans hs.undefinedByte
  · intro fd' hfd'
    by_cases he : fd' = fd
    · subst he
      rw [update_self]
      exact ⟨h, _, hw.changed hc, hc.turned.cursor_eq⟩
    · obtain ⟨h', d', _, hw', hcursor⟩ := hs.other hfd hfd' he hw hc
      rw [update_of_ne he]
      exact ⟨h', d', hw', hcursor⟩
  · have hback : ∀ fd' h' d', S fd' → Held w' fd' h' d' →
        ∃ d'', Held w fd' h' d'' ∧ d''.inode = d'.inode := by
      intro fd' h' d' hfd' hw'
      by_cases he : fd' = fd
      · subst he
        obtain ⟨rfl, rfl⟩ := (hw.changed hc).unique hw'
        exact ⟨d, hw, rfl⟩
      · obtain ⟨h'', d'', hbefore, hafter, _⟩ := hs.other hfd hfd' he hw hc
        obtain ⟨rfl, rfl⟩ := hafter.unique hw'
        exact ⟨_, hbefore, rfl⟩
    intro fd₁ fd₂ h₁ h₂ d₁ d₂ hfd₁ hfd₂ hne hw₁ hw₂
    obtain ⟨e₁, hold₁, hinode₁⟩ := hback fd₁ h₁ d₁ hfd₁ hw₁
    obtain ⟨e₂, hold₂, hinode₂⟩ := hback fd₂ h₂ d₂ hfd₂ hw₂
    rw [← hinode₁, ← hinode₂]
    exact hs.apart fd₁ fd₂ h₁ h₂ e₁ e₂ hfd₁ hfd₂ hne hold₁ hold₂

end Spreads

/-- What has become of a schedule of accesses from `w`. Those in `done` were performed, and each
stream has taken its own from `x` to `y` as a file that may fail, with these replies. They are all
accesses of the schedule, or they end before a rewind or an ftell that stopped the run. -/
structure Answered (S : Stream → Prop) (m : Mem) (undefinedByte : UInt8)
    (schedule done : List (Stream × Access)) (w : World) (x y : Stream → Cursor)
    (replies : Stream → List Reply) : Prop where
  traces : ∀ fd, Trace MayServe ((own fd done).map (·.request m)) (replies fd) (x fd) (y fd)
  held : ∀ fd, S fd → ∃ h d,
    Held (after ((performed (fun fd a => Access.run fd a) schedule).run w)) fd h d ∧
    cursor (after ((performed (fun fd a => Access.run fd a) schedule).run w)).kernel d = y fd
  ended : (done = schedule ∧ ∃ rs,
      value? ((performed (fun fd a => Access.run fd a) schedule).run w) = some rs ∧
      ∀ fd, own fd rs = List.zipWith (Access.answer undefinedByte) (own fd done) (replies fd)) ∨
    ∃ fd a rest, schedule = done ++ (fd, a) :: rest ∧ a.Stops ∧
      value? ((performed (fun fd a => Access.run fd a) schedule).run w) = none

section Schedules

variable {S : Stream → Prop} {m : Mem} {kept : Nat → Prop} {undefinedByte : UInt8} {w : World}
  {x y : Stream → Cursor} {schedule done : List (Stream × Access)}

/-- The accesses that were performed come first in the schedule, and they are all of it where none
can be stopped. -/
theorem Answered.performed {replies : Stream → List Reply}
    (h : Answered S m undefinedByte schedule done w x y replies) :
    done <+: schedule ∧ ((∀ e ∈ schedule, ¬ e.2.Stops) → done = schedule) := by
  rcases h.ended with ⟨rfl, _⟩ | ⟨fd, a, rest, rfl, hstops, _⟩
  · exact ⟨List.prefix_refl done, fun _ => rfl⟩
  · have hmem : (fd, a) ∈ done ++ (fd, a) :: rest := List.mem_append_right done (.head rest)
    exact ⟨List.prefix_append done _, fun hgoes => absurd hstops (hgoes _ hmem)⟩

end Schedules

end Stdio
