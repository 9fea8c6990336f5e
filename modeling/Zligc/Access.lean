import Zligc.Zig

/-!
# What a program does to memory and what it reads there

A function of the library is written for every state that has a memory in it.
`Yields` describes such a function once for all of them: what it returns, the
memory it leaves, and the places `p[i]` it may have read on the way. On a plain
memory it is an equation for the run; on a state that keeps its reads it also
bounds them.
-/
namespace Zig

open Effect CellMemory

/-- A state in which one can see the reads that were made: `seen s p i` says that `p[i]` was read.
Only reads add to what is seen, and storing changes the memory alone. -/
class Watched (σ : Type) [HasMem σ] where
  seen : σ → Nat → Nat → Prop
  mem_withMem : ∀ (s : σ) (m : Mem), HasMem.mem (HasMem.withMem s m) = m
  mem_reading : ∀ (p i : Nat) (s : σ), HasMem.mem (HasMem.reading p i s) = HasMem.mem s
  seen_withMem : ∀ (s : σ) (m : Mem), seen (HasMem.withMem s m) = seen s
  seen_reading : ∀ (p i : Nat) (s : σ) (q j : Nat),
    seen (HasMem.reading p i s) q j → (q = p ∧ j = i) ∨ seen s q j
  seen_kept : ∀ (p i : Nat) (s : σ) (q j : Nat), seen s q j → seen (HasMem.reading p i s) q j

attribute [simp] Watched.mem_withMem Watched.mem_reading

/-- Nothing is seen of the reads of a plain memory. -/
instance : Watched Mem where
  seen _ _ _ := False
  mem_withMem _ _ := rfl
  mem_reading _ _ _ := rfl
  seen_withMem _ _ := rfl
  seen_reading _ _ _ _ _ h := h.elim
  seen_kept _ _ _ _ _ h := h

variable {σ α β : Type} [HasMem σ]

@[simp low] theorem load_ok {s : σ} {p i : Nat} {b : UInt8}
    (h : (HasMem.mem s).cell (p + i) = some b) :
    (load p i).run s = .ok b (HasMem.reading p i s) := by
  simp [load, EStateM.run, h]

@[simp low] theorem store_ok {s : σ} {p i : Nat} (b : UInt8)
    (h : ((HasMem.mem s).cell (p + i)).isSome) :
    (store p i b).run s = .ok () (HasMem.withMem s (write (HasMem.mem s) (p + i) [b])) := by
  simp [store, EStateM.run, h]

variable [Watched σ] {A : Nat → Nat → Prop}

/-- What was read between two states lies in `A`. -/
def ReadsIn (A : Nat → Nat → Prop) (s t : σ) : Prop :=
  ∀ p i, Watched.seen t p i → Watched.seen s p i ∨ A p i

@[simp] theorem ReadsIn.refl (s : σ) : ReadsIn A s s := fun _ _ h => Or.inl h

theorem ReadsIn.trans {s t u : σ} (h : ReadsIn A s t) (h' : ReadsIn A t u) : ReadsIn A s u := by
  intro p i hu
  cases h' p i hu with
  | inl ht => exact h p i ht
  | inr hA => exact Or.inr hA

@[simp] theorem readsIn_withMem (s t : σ) (m : Mem) :
    ReadsIn A s (HasMem.withMem t m) ↔ ReadsIn A s t := by
  unfold ReadsIn
  rw [Watched.seen_withMem]

@[simp] theorem readsIn_reading {p i : Nat} (hA : A p i) (s t : σ) :
    ReadsIn A s (HasMem.reading p i t) ↔ ReadsIn A s t := by
  constructor
  · intro h q j hq
    exact h q j (Watched.seen_kept p i t q j hq)
  · intro h q j hq
    rcases Watched.seen_reading p i t q j hq with ⟨rfl, rfl⟩ | hold
    · exact Or.inr hA
    · exact h q j hold

/-- From memory `m` the program returns `a` in memory `m'`, having read nothing outside `A`. -/
def Yields (A : Nat → Nat → Prop) (m : Mem) (x : Run σ α) (a : α) (m' : Mem) : Prop :=
  ∀ s, HasMem.mem s = m → ∃ t, x.run s = .ok a t ∧ HasMem.mem t = m' ∧ ReadsIn A s t

section Rules

variable {m m' : Mem} {p i : Nat} {a : α}

theorem yields_pure (a : α) : Yields A m (pure a : Run σ α) a m :=
  fun s hs => ⟨s, rfl, hs, .refl s⟩

theorem Yields.bind {x : Run σ α} {f : α → Run σ β} {b : β} {n : Mem} (hx : Yields A m x a n)
    (hf : Yields A n (f a) b m') : Yields A m (x >>= f) b m' := by
  intro s hs
  obtain ⟨t, hrun, ht, hst⟩ := hx s hs
  obtain ⟨u, hrun', hu, htu⟩ := hf t ht
  exact ⟨u, by rw [bind_ok hrun, hrun'], hu, hst.trans htu⟩

theorem yields_load {b : UInt8} (h : m.cell (p + i) = some b) (hA : A p i) :
    Yields A m (load p i : Run σ UInt8) b m := by
  intro s hs
  simp [hs, h, hA]

theorem yields_add {a b : Nat} (h : a + b < 0x10000000000000000) :
    Yields A m (add a b : Run σ Nat) (a + b) m := by
  intro s hs
  simp [hs, h]

theorem yields_sub {a b : Nat} (h : b ≤ a) : Yields A m (sub a b : Run σ Nat) (a - b) m := by
  intro s hs
  simp [hs, h]

/-- On a plain memory the run is determined. -/
theorem Yields.run {x : Run Mem α} (h : Yields A m x a m') : x.run m = .ok a m' := by
  obtain ⟨t, hrun, ht, _⟩ := h m rfl
  rw [hrun]
  exact congrArg _ ht

/-- A loop whose rounds follow a known trajectory of variables and memories. -/
theorem yields_loop {stuck : Fault} {body : β → Run σ (Turn β α)} (b : Nat → β) (ms : Nat → Mem)
    {k n : Nat} (hk : k < n)
    (h : ∀ i, i < k → Yields A (ms i) (body (b i)) (.next (b (i + 1))) (ms (i + 1)))
    (hlast : Yields A (ms k) (body (b k)) (.done a) m') :
    Yields A (ms 0) (loop stuck body n (b 0)) a m' := by
  induction k generalizing n b ms with
  | zero =>
    obtain ⟨n, rfl⟩ : ∃ l, n = l + 1 := ⟨n - 1, by omega⟩
    exact hlast.bind (yields_pure a)
  | succ k ih =>
    obtain ⟨n, rfl⟩ : ∃ l, n = l + 1 := ⟨n - 1, by omega⟩
    exact (h 0 (by omega)).bind (ih (fun i => b (i + 1)) (fun i => ms (i + 1)) (by omega)
      (fun i hi => h (i + 1) (by omega)) hlast)

theorem yields_while {body : β → Run σ (Turn β α)} (b : Nat → β) (ms : Nat → Mem) {b₀ : β}
    {k : Nat} (hb : b 0 = b₀) (hm : ms 0 = m) (hk : k < 0x10000000000000000)
    (h : ∀ i, i < k → Yields A (ms i) (body (b i)) (.next (b (i + 1))) (ms (i + 1)))
    (hlast : Yields A (ms k) (body (b k)) (.done a) m') : Yields A m (while_ b₀ body) a m' := by
  rw [← hb, ← hm]
  exact yields_loop b ms hk h hlast

end Rules

end Zig
