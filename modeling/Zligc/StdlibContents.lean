import Zligc.Client

/-!
# The contents that realloc carries over

realloc hands std's allocator an empty slice in place of the block it was given,
so what it returns is a fresh block in which nothing has been copied. It shows
the old contents only if they happen to be what the allocation leaves there.
-/
namespace Stdlib

open Effect CellMemory Zig Zligc Allocator Arena Client

/-- realloc(p, n) on a live block at `p` with the content `v`: it returns a block that begins with
the old content, or null and the old block is still there, and no other block has changed. With null
it is malloc. -/
structure Preserves (w : World) (live : List Block) (p : Nat) (v : List UInt8) (n : Nat) : Prop where
  returns : ∃ result w', (realloc (some p) n).run w = .ok result w' ∧
    (∀ q, result = some q → Holds w'.mem q (v.take n)) ∧
    (result = none → Holds w'.mem p v ∧
      ⟨p, v.length⟩ ∈ (Call.realloc (some p) n).live result live) ∧
    ∀ b, b ∈ live → b ≠ ⟨p, v.length⟩ → ∀ i, i < b.len →
      w'.mem.cell (b.addr + i) = w.mem.cell (b.addr + i)
  null : (realloc none n).run w = (malloc n).run w

/-- What an allocation would leave at an address of the block. -/
def freshCell (w : World) (q : Nat) : Option UInt8 := (w.mem.cell q).map (w.fresh q)

/-- The address belongs to a live block that is not the one at `p`. -/
def OfAnother (live : List Block) (p len q : Nat) : Prop :=
  ∃ b, b ∈ live ∧ b ≠ ⟨p, len⟩ ∧ b.addr ≤ q ∧ q < b.addr + b.len

/-- There is no room for `n` bytes, or the place for them holds the first bytes of `v` once it has
been allocated, and what other live blocks have there is not changed by that. -/
def AlreadyThere (w : World) (live : List Block) (p : Nat) (v : List UInt8) (n : Nat) : Prop :=
  capacity < w.fixed.end_index + n ∨
    (∀ i, i < (v.take n).length →
      freshCell w (w.fixed.base + w.fixed.end_index + i) = (v.take n)[i]?) ∧
    ∀ j, j < n → OfAnother live p v.length (w.fixed.base + w.fixed.end_index + j) →
      freshCell w (w.fixed.base + w.fixed.end_index + j) =
        w.mem.cell (w.fixed.base + w.fixed.end_index + j)

section Contents

variable {w : World} {n p : Nat} {v : List UInt8} {live : List Block}

theorem realloc_eq_malloc (ptr : Option Nat) (n : Nat) (w : World) :
    (realloc ptr n).run w = (malloc n).run w := by
  cases ptr <;> rfl

theorem malloc_fits (h : w.fixed.end_index + n ≤ capacity) :
    (malloc n).run w = .ok (some (w.fixed.base + w.fixed.end_index))
      { w with
        fixed := { w.fixed with end_index := w.fixed.end_index + n, used_le := h }
        mem := change w.mem (w.fixed.base + w.fixed.end_index) n w.fresh } :=
  malloc_some (by rw [alloc_bytes, dif_pos h])

theorem malloc_full (h : capacity < w.fixed.end_index + n) : (malloc n).run w = .ok none w :=
  malloc_none (by rw [alloc_bytes, dif_neg (Nat.not_le.mpr h)])

/-- The fresh block begins with a list if that is what the allocation leaves there. -/
theorem holds_change {a : Nat} {xs : List UInt8} (hlen : xs.length ≤ n) :
    Holds (change w.mem a n w.fresh) a xs ↔
      ∀ i, i < xs.length → freshCell w (a + i) = xs[i]? := by
  have hcell : ∀ i, i < xs.length →
      (change w.mem a n w.fresh).cell (a + i) = freshCell w (a + i) :=
    fun i hi => change_inside w.mem w.fresh (by omega)
  exact forall_congr' fun i => forall_congr' fun hi => by rw [hcell i hi]

/-- The other blocks are as they were if the allocation does not change what they have in its
place. -/
theorem others_change {a len : Nat} :
    (∀ b, b ∈ live → b ≠ ⟨p, len⟩ → ∀ i, i < b.len →
      (change w.mem a n w.fresh).cell (b.addr + i) = w.mem.cell (b.addr + i)) ↔
    ∀ j, j < n → OfAnother live p len (a + j) → freshCell w (a + j) = w.mem.cell (a + j) := by
  constructor
  · rintro h j hj ⟨b, hb, hne, hlo, hhi⟩
    have hsame := h b hb hne (a + j - b.addr) (by omega)
    rw [show b.addr + (a + j - b.addr) = a + j by omega,
      change_inside w.mem w.fresh (by omega)] at hsame
    exact hsame
  · intro h b hb hne i hi
    by_cases hin : a ≤ b.addr + i ∧ b.addr + i < a + n
    · have hsame := h (b.addr + i - a) (by omega) ⟨b, hb, hne, by omega, by omega⟩
      rw [show a + (b.addr + i - a) = b.addr + i by omega] at hsame
      rw [change_inside w.mem w.fresh hin]
      exact hsame
    · exact change_outside w.mem w.fresh hin

theorem preserves_iff (hlive : ⟨p, v.length⟩ ∈ live) (hv : Holds w.mem p v) :
    Preserves w live p v n ↔ AlreadyThere w live p v n := by
  have hlen : (v.take n).length ≤ n := List.length_take_le n v
  constructor
  · intro h
    obtain ⟨result, w', hrun, hsome, _, hothers⟩ := h.returns
    rw [realloc_eq_malloc] at hrun
    by_cases hfit : w.fixed.end_index + n ≤ capacity
    · rw [malloc_fits hfit] at hrun
      obtain ⟨rfl, rfl⟩ := EStateM.Result.ok.inj hrun
      exact Or.inr ⟨(holds_change hlen).mp (hsome _ rfl), others_change.mp hothers⟩
    · exact Or.inl (Nat.lt_of_not_le hfit)
  · intro h
    constructor
    · by_cases hfit : w.fixed.end_index + n ≤ capacity
      · obtain ⟨hthere, hothers⟩ := h.resolve_left (Nat.not_lt.mpr hfit)
        refine ⟨_, _, (realloc_eq_malloc _ n w).trans (malloc_fits hfit), ?_, ?_, ?_⟩
        · intro q hq
          exact Option.some.inj hq ▸ (holds_change hlen).mpr hthere
        · intro hnone
          cases hnone
        · exact others_change.mpr hothers
      · have hrun := malloc_full (Nat.lt_of_not_le hfit)
        refine ⟨_, _, (realloc_eq_malloc _ n w).trans hrun, ?_, ?_, ?_⟩
        · intro q hq
          cases hq
        · exact fun _ => ⟨hv, hlive⟩
        · exact fun _ _ _ _ _ => rfl
    · exact realloc_eq_malloc none n w

end Contents

/-- A call of realloc does what it promises to every block at its pointer, whatever it holds, and
with null it does what malloc does. -/
def ReallocKeeps (w : World) (h : Held) : Client.Call → Prop
  | .heap (.realloc (some p) n) => ∀ v, ⟨p, v.length⟩ ∈ h.blocks → Holds w.mem p v →
    Preserves w h.blocks p v n
  | .heap (.realloc none n) => (realloc none n).run w = (malloc n).run w
  | _ => True

/-- The content of the block is already where realloc will put the new one. -/
def ContentThere (w : World) (h : Held) : Client.Call → Prop
  | .heap (.realloc (some p) n) => ∀ v, ⟨p, v.length⟩ ∈ h.blocks → Holds w.mem p v →
    AlreadyThere w h.blocks p v n
  | _ => True

theorem realloc_keeps_iff (w : World) (h : Held) (c : Client.Call) :
    ReallocKeeps w h c ↔ ContentThere w h c := by
  cases c with
  | stdio c => exact Iff.rfl
  | heap c =>
    cases c with
    | realloc ptr n =>
      cases ptr with
      | none => exact ⟨fun _ => trivial, fun _ => realloc_eq_malloc none n w⟩
      | some p =>
        constructor
        · exact fun hc v hlive hv => (preserves_iff hlive hv).mp (hc v hlive hv)
        · exact fun hc v hlive hv => (preserves_iff hlive hv).mpr (hc v hlive hv)
    | _ => exact Iff.rfl

/-- The runs in which every realloc preserves contents are those in which every realloc finds no
room for its block or is given a place with the content in it. -/
theorem realloc_preserves_iff {w w' : World} {h h' : Held} {calls : List Client.Call} :
    Runs ReallocKeeps w h calls w' h' ↔ Runs ContentThere w h calls w' h' := by
  have hany : ∀ (w w' : World) (c : Client.Call) (a : Answer), True →
      c.run.run w = .ok a w' → True := fun _ _ _ _ _ _ => trivial
  constructor
  · exact fun hrun => hrun.weaken trivial hany fun w _ h c _ _ _ => (realloc_keeps_iff w h c).mp
  · exact fun hrun => hrun.weaken trivial hany fun w _ h c _ _ _ => (realloc_keeps_iff w h c).mpr

/-- A byte 5 is stored in a block of one byte, and realloc to one byte returns a block with another
byte in it. -/
theorem realloc_loses : ∃ w h, AnyRun heapWorld nothing
    [.heap (.malloc 1), .heap (.write 1 5)] w h ∧ ⟨1, [(5 : UInt8)].length⟩ ∈ h.blocks ∧
      Holds w.mem 1 [5] ∧ ¬ Preserves w h.blocks 1 [5] 1 := by
  have hlive : ⟨1, [(5 : UInt8)].length⟩ ∈ [Block.mk 1 1] := by decide
  have hv : Holds (write (change firstMem 1 1 fun _ b => b) 1 [5]) 1 [5] := by decide
  refine ⟨_, _, .cons trivial rfl (.cons trivial rfl (.nil _ _)), hlive, hv, ?_⟩
  intro hkeeps
  rcases (preserves_iff hlive hv).mp hkeeps with hfull | hthere
  · exact absurd hfull (by decide)
  · exact absurd (hthere.1 0 (by decide)) (by decide)

end Stdlib
