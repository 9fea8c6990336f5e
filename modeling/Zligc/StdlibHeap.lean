import Zligc.Stdlib
import Zligc.Arena

/-!
# The blocks that the heap functions hand out

Every request is served from the free end of the static buffer, so blocks of the
length that was requested never overlap. calloc requests `size` bytes whatever
the number of elements; a run is safe as long as no call of it needs more.
-/
namespace Stdlib

open Effect CellMemory Zig Zligc Allocator Arena

/-- The calls of a client, and a store of its own between them. -/
inductive Call where
  | malloc (size : Nat)
  | calloc (num size : Nat)
  | realloc (ptr : Option Nat) (new_size : Nat)
  | aligned_alloc (alignment size : Nat)
  | free (ptr : Option Nat)
  | write (p : Nat) (b : UInt8)
  deriving DecidableEq, Repr

def Call.run : Call → Run World (Option Nat)
  | .malloc size => Stdlib.malloc size
  | .calloc num size => Stdlib.calloc num size
  | .realloc ptr new_size => Stdlib.realloc ptr new_size
  | .aligned_alloc alignment size => Stdlib.aligned_alloc alignment size
  | .free ptr => do
    Stdlib.free ptr
    return none
  | .write p b => do
    onMem (store p 0 b)
    return none

/-- The number of bytes the C interface promises behind a non-null result. -/
def Call.len : Call → Nat
  | .malloc size | .aligned_alloc _ size | .realloc _ size => size
  | .calloc num size => num * size
  | .free _ | .write _ _ => 0

/-- The live blocks after the call. -/
def Call.live (c : Call) (result : Option Nat) (live : List Block) : List Block :=
  match c, result with
  | .free ptr, _ => release ptr live
  | .realloc ptr _, some p => ⟨p, c.len⟩ :: release ptr live
  | _, some p => ⟨p, c.len⟩ :: live
  | _, none => live

/-- The bytes a call of calloc requests are enough for what it promises, or there is no room even
for them. -/
def Call.Sized (w : World) : Call → Prop
  | .calloc num size => num ≤ 1 ∨ size = 0 ∨ capacity < w.fixed.end_index + size
  | _ => True

/-- The runs from `w` with the blocks `live` in which every call returns and meets a condition on
the state before it. -/
inductive HeapRun (meets : World → Call → Prop) :
    World → List Block → List Call → World → List Block → Prop where
  | nil (w : World) (live : List Block) : HeapRun meets w live [] w live
  | cons {w w' w'' : World} {live live' : List Block} {c : Call} {calls : List Call}
      {result : Option Nat} :
      meets w c → c.run.run w = .ok result w' →
      HeapRun meets w' (c.live result live) calls w'' live' →
      HeapRun meets w live (c :: calls) w'' live'

/-- The static buffer at `base` is memory, and the live blocks lie in its used part without
overlapping. -/
structure HeapInv (base : Nat) (w : World) (live : List Block) : Prop where
  place : w.fixed.base = base
  mapped : Mapped w.mem base capacity
  packed : Packed base (base + w.fixed.end_index) live

/-- A request of `n` bytes returned null and changed nothing, or it returned what the allocator
served. -/
def Served (n : Nat) (w : World) (result : Option Nat) (w' : World) : Prop :=
  (result = none ∧ w' = w) ∨
    ∃ p, result = some p ∧ w.fixed.alloc n 1 = some (p, w'.fixed) ∧
      ∀ q, (w'.mem.cell q).isSome = (w.mem.cell q).isSome

section Requests

variable {base n : Nat} {w w' : World} {live live' : List Block} {result : Option Nat}

theorem malloc_none (hf : w.fixed.alloc n 1 = none) : (malloc n).run w = .ok none w := by
  rw [malloc, bind_ok (alloc_none hf)]
  rfl

theorem malloc_some {p : Nat} {f : FixedBuffer} (hf : w.fixed.alloc n 1 = some (p, f)) :
    (malloc n).run w =
      .ok (some p) { w with fixed := f, mem := change w.mem p n w.fresh } := by
  rw [malloc, bind_ok (alloc_some hf)]
  rfl

theorem malloc_served (h : (malloc n).run w = .ok result w') : Served n w result w' := by
  cases hf : w.fixed.alloc n 1 with
  | none =>
    rw [malloc_none hf] at h
    cases h
    exact Or.inl ⟨rfl, rfl⟩
  | some r =>
    rw [malloc_some hf] at h
    cases h
    exact Or.inr ⟨r.1, rfl, hf, change_mapped _ _ _ _⟩

theorem realloc_served {ptr : Option Nat} (h : (realloc ptr n).run w = .ok result w') :
    Served n w result w' := by
  have hmalloc : (realloc ptr n).run w = (malloc n).run w := by
    cases ptr <;> rfl
  rw [hmalloc] at h
  exact malloc_served h

/-- What the allocator serves is memory. -/
theorem HeapInv.served_mapped (h : HeapInv base w live) {p : Nat} {f : FixedBuffer}
    (hf : w.fixed.alloc n 1 = some (p, f)) : Mapped w.mem p n := by
  have hspec := alloc_spec hf
  have hle := f.used_le
  have hplace := h.place
  exact h.mapped.part (by omega) (by omega)

theorem calloc_null (num : Nat) (hf : w.fixed.alloc n 1 = none) :
    (calloc num n).run w = .ok none w := by
  rw [calloc, bind_ok (alloc_none hf)]
  rfl

theorem calloc_run (num : Nat) (h : HeapInv base w live) {p : Nat} {f : FixedBuffer}
    (hf : w.fixed.alloc n 1 = some (p, f)) :
    (calloc num n).run w =
      .ok (some p) { w with fixed := f, mem := write w.mem p (List.replicate n 0) } := by
  have hset := Slice.set_run 0 ((h.served_mapped hf).change p n w.fresh)
  have hover := write_change w.mem p w.fresh (List.replicate n 0)
  rw [List.length_replicate] at hover
  rw [calloc, bind_ok (alloc_some hf)]
  simp [hset, hover]

theorem calloc_served (num : Nat) (h : HeapInv base w live)
    (hr : (calloc num n).run w = .ok result w') : Served n w result w' := by
  cases hf : w.fixed.alloc n 1 with
  | none =>
    rw [calloc_null num hf] at hr
    cases hr
    exact Or.inl ⟨rfl, rfl⟩
  | some r =>
    rw [calloc_run num h hf] at hr
    cases hr
    exact Or.inr ⟨r.1, rfl, hf, write_mapped _ _ _⟩

/-- The number of bytes that a call requests from the allocator. -/
def Call.requested : Call → Option Nat
  | .malloc size | .calloc _ size | .realloc _ size | .aligned_alloc _ size => some size
  | .free _ | .write _ _ => none

/-- What the allocator does with a request of `n` bytes. -/
def Taken (n : Nat) (w : World) (result : Option Nat) (w' : World) : Prop :=
  (w.fixed.alloc n 1 = none ∧ result = none ∧ w'.fixed = w.fixed) ∨
    ∃ p, w.fixed.alloc n 1 = some (p, w'.fixed) ∧ result = some p

theorem malloc_taken (h : (malloc n).run w = .ok result w') : Taken n w result w' := by
  cases hf : w.fixed.alloc n 1 with
  | none =>
    rw [malloc_none hf] at h
    cases h
    exact Or.inl ⟨hf, rfl, rfl⟩
  | some r =>
    rw [malloc_some hf] at h
    cases h
    exact Or.inr ⟨r.1, hf, rfl⟩

theorem calloc_taken (num : Nat) (h : (calloc num n).run w = .ok result w') :
    Taken n w result w' := by
  cases hf : w.fixed.alloc n 1 with
  | none =>
    rw [calloc_null num hf] at h
    cases h
    exact Or.inl ⟨hf, rfl, rfl⟩
  | some r =>
    rw [calloc, bind_ok (alloc_some hf), EStateM.run_bind, run_onMem] at h
    cases hrun : (Slice.set r.1 n 0).run (change w.mem r.1 n w.fresh) with
    | ok a m =>
      rw [hrun] at h
      cases h
      exact Or.inr ⟨r.1, hf, rfl⟩
    | error e m =>
      rw [hrun] at h
      cases h

/-- Every request that returns is a request to the allocator. -/
theorem request_taken {c : Call} (hc : c.requested = some n) (h : c.run.run w = .ok result w') :
    Taken n w result w' := by
  cases c with
  | malloc size | aligned_alloc _ size =>
    obtain rfl := Option.some.inj hc
    exact malloc_taken h
  | calloc num size =>
    obtain rfl := Option.some.inj hc
    exact calloc_taken num h
  | realloc ptr size =>
    obtain rfl := Option.some.inj hc
    have hmalloc : (realloc ptr size).run w = (malloc size).run w := by
      cases ptr <;> rfl
    exact malloc_taken (hmalloc ▸ h)
  | free | write => cases hc

/-- A call that requests nothing leaves the allocator alone. -/
theorem other_fixed {c : Call} (hc : c.requested = none) (h : c.run.run w = .ok result w') :
    w'.fixed = w.fixed := by
  cases c with
  | free ptr =>
    cases h
    rfl
  | write p b =>
    rw [Call.run, EStateM.run_bind, run_onMem] at h
    cases hrun : (store p 0 b).run w.mem with
    | ok a m =>
      rw [hrun] at h
      cases h
      rfl
    | error e m =>
      rw [hrun] at h
      cases h
  | _ => cases hc

/-- A request keeps the invariant if the block it is said to have returned is no longer than what
was requested. -/
theorem HeapInv.served (h : HeapInv base w live) {p len : Nat} (hs : Served n w (some p) w')
    (hlen : len ≤ n) (hsub : live'.Sublist live) : HeapInv base w' (⟨p, len⟩ :: live') := by
  cases hs with
  | inl hnull => exact nomatch hnull.1
  | inr hsome =>
    obtain ⟨q, hq, hf, hmap⟩ := hsome
    obtain rfl := Option.some.inj hq
    have hspec := alloc_spec hf
    have hplace := h.place
    refine ⟨hspec.1.trans h.place, fun i hi => ?_, ?_⟩
    · rw [hmap]
      exact h.mapped i hi
    · exact (h.packed.release hsub).serve (by omega) (by omega) (by omega)

theorem HeapInv.refused (h : HeapInv base w live) (hs : Served n w none w') :
    HeapInv base w' live := by
  cases hs with
  | inl hnull => exact hnull.2 ▸ h
  | inr hsome =>
    obtain ⟨q, hq, _⟩ := hsome
    cases hq

/-- Where a sized calloc returns a block, it has requested what it promises. -/
theorem sized_calloc {num size p : Nat} (hc : (Call.calloc num size).Sized w)
    (hs : Served size w (some p) w') : num * size ≤ size := by
  cases hs with
  | inl hnull => exact nomatch hnull.1
  | inr hsome =>
    obtain ⟨q, _, hf, _⟩ := hsome
    have hspec := alloc_spec hf
    have hle := w'.fixed.used_le
    rcases hc with hnum | hsize | hroom
    · calc num * size ≤ 1 * size := Nat.mul_le_mul_right size hnum
        _ = size := Nat.one_mul size
    · simp [hsize]
    · omega

/-- One sized call of the heap. -/
theorem call_heap (h : HeapInv base w live) {c : Call} (hc : c.Sized w)
    (hr : c.run.run w = .ok result w') : HeapInv base w' (c.live result live) := by
  cases c with
  | malloc size | aligned_alloc _ size =>
    have hs := malloc_served hr
    cases result with
    | none => exact h.refused hs
    | some p => exact h.served hs (Nat.le_refl _) (List.Sublist.refl _)
  | calloc num size =>
    have hs := calloc_served num h hr
    cases result with
    | none => exact h.refused hs
    | some p => exact h.served hs (sized_calloc hc hs) (List.Sublist.refl _)
  | realloc ptr size =>
    have hs := realloc_served hr
    cases result with
    | none => exact h.refused hs
    | some p => exact h.served hs (Nat.le_refl _) (release_sublist _ _)
  | free ptr =>
    obtain ⟨-, rfl⟩ : none = result ∧ w = w' := by simpa [Call.run, free, freeSlice] using hr
    exact ⟨h.place, h.mapped, h.packed.release (release_sublist _ _)⟩
  | write p b =>
    by_cases hcell : (w.mem.cell (p + 0)).isSome
    · have hstore := store_run b hcell
      simp [Call.run, hstore] at hr
      obtain ⟨rfl, rfl⟩ := hr
      exact ⟨h.place, h.mapped.write _ _, h.packed⟩
    · have hstore := store_fault b (Option.not_isSome_iff_eq_none.mp hcell)
      simp [Call.run, hstore] at hr

/-- A sized calloc leaves zeroes behind its result, and it returns null where the size it was asked
for is no `usize`. -/
theorem calloc_promise (h : HeapInv base w live) {num size : Nat}
    (hc : (Call.calloc num size).Sized w) (hr : (calloc num size).run w = .ok result w') :
    (0x10000000000000000 ≤ num * size → result = none) ∧
      ∀ p, result = some p → ∀ i, i < num * size → w'.mem.cell (p + i) = some 0 := by
  have hs := calloc_served num h hr
  constructor
  · intro hover
    cases result with
    | none => rfl
    | some p =>
      have hle := sized_calloc hc hs
      obtain ⟨q, _, hf, _⟩ : ∃ q, some p = some q ∧ w.fixed.alloc size 1 = some (q, w'.fixed) ∧ _ :=
        hs.resolve_left fun hnull => nomatch hnull.1
      have hspec := alloc_spec hf
      have hcap := w'.fixed.used_le
      have hpos := w'.fixed.base_pos
      have hbase := w'.fixed.base_le
      omega
  · rintro p rfl i hi
    have hle := sized_calloc hc hs
    cases hf : w.fixed.alloc size 1 with
    | none =>
      rw [calloc_null num hf] at hr
      cases hr
    | some r =>
      rw [calloc_run num h hf] at hr
      cases hr
      have hzero := holds_write w.mem r.1 (List.replicate size 0)
        (by rw [List.length_replicate]; exact h.served_mapped hf)
      rw [hzero i (by rw [List.length_replicate]; omega), List.getElem?_replicate, if_pos (by omega)]

end Requests

/-- A whole run of sized calls. -/
theorem run_heap {base : Nat} {w w' : World} {live live' : List Block} {calls : List Call}
    (h : HeapInv base w live) (hrun : HeapRun (fun w c => c.Sized w) w live calls w' live') :
    HeapInv base w' live' := by
  induction hrun with
  | nil w live => exact h
  | cons hc hr _ ih => exact ih (call_heap h hc hr)

/-- In a run of sized calls from a process start, each further sized call leaves the live blocks
inside the static buffer and apart from one another; if it is a calloc its block is zeroed, or null
when its size overflows. -/
theorem heap_blocks_disjoint {w w' w'' : World} {calls : List Call} {live : List Block} {c : Call}
    {result : Option Nat} (hbuf : Mapped w.mem w.fixed.base capacity)
    (hrun : HeapRun (fun w c => c.Sized w) w [] calls w' live) (hc : c.Sized w')
    (hr : c.run.run w' = .ok result w'') :
    (∀ b, b ∈ c.live result live →
      w.fixed.base ≤ b.addr ∧ b.addr + b.len ≤ w.fixed.base + capacity) ∧
    (c.live result live).Pairwise Block.Apart ∧
    ∀ num size, c = .calloc num size →
      (0x10000000000000000 ≤ num * size → result = none) ∧
        ∀ p, result = some p → ∀ i, i < num * size → w''.mem.cell (p + i) = some 0 := by
  have hinv := run_heap ⟨rfl, hbuf, packed_nil _ _⟩ hrun
  have hnext := call_heap hinv hc hr
  refine ⟨fun b hb => ?_, hnext.packed.apart, ?_⟩
  · have hw := hnext.packed.within b hb
    have hcap := w''.fixed.used_le
    omega
  · rintro num size rfl
    exact calloc_promise hinv hc hr

def heapWorld : World := startWorld firstMem (OsFile.Kernel.started .lowest [])

theorem firstMem_mapped : Mapped heapWorld.mem heapWorld.fixed.base capacity := by
  intro i hi
  have hin : 1 ≤ 1 + i ∧ 1 + i ≤ capacity := by omega
  simp [heapWorld, startWorld, firstBuffer, firstMem, hin]

theorem heap_blocks_disjoint_example :
    ∃ w' w'', HeapRun (fun w c => c.Sized w) heapWorld [] [.malloc 4] w' [⟨1, 4⟩] ∧
      (Call.calloc 1 3).run.run w' = .ok (some 5) w'' ∧
      (∀ b, b ∈ (Call.calloc 1 3).live (some 5) [⟨1, 4⟩] →
        heapWorld.fixed.base ≤ b.addr ∧ b.addr + b.len ≤ heapWorld.fixed.base + capacity) ∧
      ((Call.calloc 1 3).live (some 5) [⟨1, 4⟩]).Pairwise Block.Apart ∧
      ∀ num size, Call.calloc 1 3 = .calloc num size →
        (0x10000000000000000 ≤ num * size → some 5 = none) ∧
          ∀ p, some 5 = some p → ∀ i, i < num * size → w''.mem.cell (p + i) = some 0 := by
  have hrun : HeapRun (fun w c => c.Sized w) heapWorld [] [.malloc 4] _ [⟨1, 4⟩] :=
    .cons trivial rfl (.nil _ _)
  have hsized : ∀ w, (Call.calloc 1 3).Sized w := fun _ => Or.inl (Nat.le_refl 1)
  have hnext := calloc_run (n := 3) 1 (run_heap ⟨rfl, firstMem_mapped, packed_nil _ _⟩ hrun)
    (show _ = some (5, ⟨1, 7, by decide, by decide, by decide⟩) from rfl)
  exact ⟨_, _, hrun, hnext, heap_blocks_disjoint firstMem_mapped hrun (hsized _) hnext⟩

/-- calloc promises two bytes and takes one: the next malloc gets the other. -/
theorem calloc_overlap :
    ∃ w live, HeapRun (fun _ _ => True) heapWorld [] [.calloc 2 1, .malloc 1] w live ∧
      ¬ live.Pairwise Block.Apart := by
  have hcalloc := calloc_run 2 ⟨rfl, firstMem_mapped, packed_nil _ _⟩
    (show heapWorld.fixed.alloc 1 1 = some (1, ⟨1, 1, by decide, by decide, by decide⟩) from rfl)
  exact ⟨_, [⟨2, 1⟩, ⟨1, 2⟩], .cons trivial hcalloc (.cons trivial rfl (.nil _ _)), by decide⟩

end Stdlib
