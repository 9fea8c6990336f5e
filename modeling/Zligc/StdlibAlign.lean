import Zligc.StdlibContents

/-!
# The alignment of allocated blocks

Every heap function asks the allocator for bytes, which have no alignment, and
aligned_alloc does not look at the one it is given. A block is aligned exactly if
the used part of the buffer happens to end at a boundary when it is requested.
-/
namespace Stdlib

open Effect CellMemory Zig Zligc Allocator Arena Client

/-- The largest fundamental alignment. -/
def maxAlign : Nat := 16

/-- The alignment that a call promises: the fundamental one, or the one asked for if that is a power
of two that divides the size. -/
def Call.Promises : Call → Nat → Prop
  | .malloc _ | .calloc _ _ | .realloc _ _ => (· = maxAlign)
  | .aligned_alloc alignment size =>
    fun a => a = alignment ∧ alignment.isPowerOfTwo ∧ alignment ∣ size
  | .free _ | .write _ _ => fun _ => False

/-- Whatever the call returns has the alignment that it promises. -/
def Aligned (w : World) (_ : Held) : Client.Call → Prop
  | .heap c => ∀ a p w', c.Promises a → c.run.run w = .ok (some p) w' → a ∣ p
  | .stdio _ => True

/-- Where the request of the call fits into the buffer, the used part ends at a boundary of the
alignment that the call promises. -/
def AtBoundary (w : World) (_ : Held) : Client.Call → Prop
  | .heap (.malloc size) | .heap (.calloc _ size) | .heap (.realloc _ size) =>
    w.fixed.end_index + size ≤ capacity → maxAlign ∣ w.fixed.end_index
  | .heap (.aligned_alloc alignment size) => alignment.isPowerOfTwo → alignment ∣ size →
    w.fixed.end_index + size ≤ capacity → alignment ∣ w.fixed.base + w.fixed.end_index
  | _ => True

section Results

variable {w w' : World} {h h' : Held} {n : Nat} {r : Option Nat}

/-- A request that fits returns the end of the used part. -/
theorem request_result {c : Stdlib.Call} (hc : c.requested = some n)
    (hr : c.run.run w = .ok r w') :
    r = if w.fixed.end_index + n ≤ capacity then some (w.fixed.base + w.fixed.end_index)
      else none := by
  rcases request_taken hc hr with ⟨ha, rfl, _⟩ | ⟨p, ha, rfl⟩
  · rw [alloc_bytes] at ha
    split at ha
    · cases ha
    · rename_i hfull
      rw [if_neg hfull]
  · rw [alloc_bytes] at ha
    split at ha
    · rename_i hfit
      rw [if_pos hfit]
      exact congrArg some (Prod.mk.inj (Option.some.inj ha)).1.symm
    · cases ha

/-- What a returning request returns is aligned exactly if it does not fit or the used part ends at
a boundary. -/
theorem result_aligned {c : Stdlib.Call} {a : Nat} (hc : c.requested = some n)
    (hr : c.run.run w = .ok r w') :
    (∀ p w', c.run.run w = .ok (some p) w' → a ∣ p) ↔
      (w.fixed.end_index + n ≤ capacity → a ∣ w.fixed.base + w.fixed.end_index) := by
  have hresult := request_result hc hr
  constructor
  · intro h hfit
    rw [if_pos hfit] at hresult
    subst hresult
    exact h _ _ hr
  · intro h p w'' hrun
    rw [hr] at hrun
    obtain ⟨rfl, rfl⟩ := EStateM.Result.ok.inj hrun
    split at hresult
    · rename_i hfit
      exact Option.some.inj hresult ▸ h hfit
    · cases hresult

theorem fundamental_aligned {c : Stdlib.Call} (hbase : maxAlign ∣ w.fixed.base)
    (hc : c.requested = some n) (hp : ∀ a, c.Promises a ↔ a = maxAlign)
    (hr : c.run.run w = .ok r w') :
    Aligned w h (.heap c) ↔ (w.fixed.end_index + n ≤ capacity → maxAlign ∣ w.fixed.end_index) := by
  rw [← Nat.dvd_add_right hbase, ← result_aligned hc hr]
  constructor
  · exact fun hall p w'' => hall maxAlign p w'' ((hp _).mpr rfl)
  · intro hall a p w'' ha
    obtain rfl := (hp a).mp ha
    exact hall p w''

theorem aligned_iff {c : Client.Call} {a : Answer} (hbase : maxAlign ∣ w.fixed.base)
    (hr : c.run.run w = .ok a w') : Aligned w h c ↔ AtBoundary w h c := by
  cases c with
  | stdio c => exact Iff.rfl
  | heap c =>
    obtain ⟨r, hcall, _⟩ := of_map_ok hr
    cases c with
    | malloc size | calloc _ size | realloc _ size =>
      exact fundamental_aligned hbase rfl (fun _ => Iff.rfl) hcall
    | aligned_alloc alignment size =>
      constructor
      · intro hall hpow hdvd
        exact (result_aligned rfl hcall).mp fun p w'' => hall _ p w'' ⟨rfl, hpow, hdvd⟩
      · rintro hbound a p w'' ⟨rfl, hpow, hdvd⟩
        exact (result_aligned rfl hcall).mpr (hbound hpow hdvd) p w''
    | free | write => exact ⟨fun _ => trivial, fun _ _ _ _ hp => hp.elim⟩

end Results

/-- In a buffer that starts at a boundary, the runs in which every block is aligned are those in
which every request that fits is made where the used part ends at a boundary. -/
theorem blocks_aligned_iff {w w' : World} {h h' : Held} {calls : List Client.Call}
    (hbase : maxAlign ∣ w.fixed.base) :
    Runs Aligned w h calls w' h' ↔ Runs AtBoundary w h calls w' h' := by
  have hkeep : ∀ (w w' : World) (c : Client.Call) (a : Answer), maxAlign ∣ w.fixed.base →
      c.run.run w = .ok a w' → maxAlign ∣ w'.fixed.base := by
    intro w w' c a hw hr
    rwa [(call_grows hr).base]
  constructor
  · exact fun hrun => hrun.weaken hbase hkeep fun w _ h c _ hw hr => (aligned_iff hw hr).mp
  · exact fun hrun => hrun.weaken hbase hkeep fun w _ h c _ hw hr => (aligned_iff hw hr).mpr

/-- A static buffer at the address 16. -/
def boundaryWorld : World :=
  { heapWorld with fixed := ⟨16, 0, Nat.zero_le _, by decide, by decide⟩ }

theorem blocks_aligned_iff_example : ∃ w h,
    Runs Aligned boundaryWorld nothing [.heap (.malloc 16), .heap (.malloc 1)] w h :=
  ⟨_, _, (blocks_aligned_iff (by decide)).mpr
    (.cons (fun _ => by decide) rfl (.cons (fun _ => by decide) rfl (.nil _ _)))⟩

/-- After a block of one byte, malloc returns an odd address. -/
theorem malloc_misaligned : maxAlign ∣ boundaryWorld.fixed.base ∧
    ∃ w h w' p, AnyRun boundaryWorld nothing [.heap (.malloc 1)] w h ∧
      (malloc 1).run w = .ok (some p) w' ∧ ¬ maxAlign ∣ p :=
  ⟨by decide, _, _, _, 17, .cons trivial rfl (.nil _ _), rfl, by decide⟩

end Stdlib
