import Zligc.CellMemory

/-!
# Blocks packed into an arena

The live blocks of an allocator that serves every request from the free end of
one arena: they lie in its used part and no two of them overlap. Releasing
blocks and using more of the arena keep both facts.
-/
namespace Arena

open CellMemory

structure Block where
  addr : Nat
  len : Nat
  deriving DecidableEq, Repr

def Block.Apart (b c : Block) : Prop := CellMemory.Apart b.addr b.len c.addr c.len

instance (b c : Block) : Decidable (b.Apart c) :=
  inferInstanceAs (Decidable (CellMemory.Apart b.addr b.len c.addr c.len))

/-- The blocks lie between `lo` and `hi`, and no two of them overlap. -/
structure Packed (lo hi : Nat) (live : List Block) : Prop where
  within : ∀ b, b ∈ live → lo ≤ b.addr ∧ b.addr + b.len ≤ hi
  apart : live.Pairwise Block.Apart

variable {lo mid hi : Nat} {live live' : List Block}

theorem packed_nil (lo hi : Nat) : Packed lo hi [] :=
  ⟨fun _ hb => absurd hb List.not_mem_nil, .nil⟩

theorem Packed.release (h : Packed lo hi live) (hs : live'.Sublist live) : Packed lo hi live' :=
  ⟨fun b hb => h.within b (hs.subset hb), h.apart.sublist hs⟩

/-- A block from behind the used part overlaps none of the blocks in it. -/
theorem Packed.serve (h : Packed lo mid live) {p n : Nat} (hlo : lo ≤ mid) (hp : mid ≤ p)
    (hn : p + n ≤ hi) : Packed lo hi (⟨p, n⟩ :: live) := by
  constructor
  · intro b hb
    cases hb with
    | head => exact ⟨by dsimp only; omega, hn⟩
    | tail _ hb =>
      have hw := h.within b hb
      omega
  · refine .cons (fun b hb i hi j hj => ?_) h.apart
    have hw := h.within b hb
    dsimp only at hi ⊢
    omega

/-- Forget one block at an address. -/
def release (q : Option Nat) (live : List Block) : List Block :=
  live.eraseP fun b => some b.addr == q

theorem release_sublist (q : Option Nat) (live : List Block) : (release q live).Sublist live :=
  List.eraseP_sublist

end Arena
