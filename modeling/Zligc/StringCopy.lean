import Zligc.String
import Zligc.Access

/-!
# What the copying functions leave in memory

Each function ends in one `write` of the memory it started from: the bytes it
copied, then the terminators or the padding it added. Those without a bound read
nothing behind a terminator.
-/
namespace ZligcString

open Effect CellMemory Zig

variable {σ : Type} [HasMem σ] [Watched σ] {A : Nat → Nat → Prop}
  {m : Mem} {dest src : Nat} {xs s cur : List UInt8}

/-- The scan for the terminator that strlen, strcat and strncat share. -/
theorem scan_yields (h : StringAt m dest s) (hA : ∀ i, i ≤ s.length → A dest i) :
    Yields A m (while_ 0 fun i => do
      if (← load dest i) != 0 then
        return .next (← add i 1)
      else
        return .done i : Run σ Nat) s.length m := by
  have hb := h.bounds
  apply yields_while (fun i => i) (fun _ => m) rfl rfl (k := s.length) (by omega)
  · intro i hi t ht
    obtain ⟨c, hc, _, hne⟩ := h.char hi
    have hadd : i + 1 < 0x10000000000000000 := by omega
    simp [ht, hc, hne, hadd, hA i (by omega)]
  · intro t ht
    simp [ht, h.terminator, hA]

theorem scan_run (h : StringAt m dest s) :
    (while_ 0 fun i => do
      if (← load dest i) != 0 then
        return .next (← add i 1)
      else
        return .done i : Run Mem Nat).run m = .ok s.length m :=
  (scan_yields h (A := fun _ _ => True) fun _ _ => trivial).run

theorem strlen_yields (h : StringAt m dest s) (hA : ∀ i, i ≤ s.length → A dest i) :
    Yields A m (strlen dest : Run σ Nat) s.length m :=
  scan_yields h hA

theorem strlen_run (h : StringAt m dest s) : (strlen dest).run m = .ok s.length m :=
  scan_run h

/-- What makes a list of bytes copyable from `src` to `dest`: it lies at `src`, no
byte of it is the terminator, and its place at `dest` is mapped and elsewhere. -/
structure Copyable (m : Mem) (dest src : Nat) (xs : List UInt8) : Prop where
  source : Holds m src xs
  nonzero : 0 ∉ xs
  target : Mapped m dest xs.length
  apart : Apart src xs.length dest xs.length

theorem copyable_of_string (count : Nat) (h : StringAt m src s) {n : Nat} (hm : Mapped m dest n)
    (ha : Apart src (s.length + 1) dest n) (hn : min count s.length ≤ n) :
    Copyable m dest src (s.take count) := by
  have hlen : (s.take count).length = min count s.length := List.length_take
  constructor
  · exact h.bytes.left.take count
  · exact fun h0 => h.nonzero (List.mem_of_mem_take h0)
  · exact hm.part (Nat.le_refl _) (by omega)
  · exact ha.mono (by omega) (by omega)

/-- One round of a copy: the next source byte is still the original one, it is
not the terminator, its place is mapped, and storing it extends the copied prefix. -/
theorem Copyable.round (h : Copyable m dest src xs) {i : Nat} (hi : i < xs.length) :
    ∃ c, (write m dest (xs.take i)).cell (src + i) = some c ∧ c ≠ 0 ∧
      ((write m dest (xs.take i)).cell (dest + i)).isSome ∧
      write (write m dest (xs.take i)) (dest + i) [c] = write m dest (xs.take (i + 1)) := by
  have hlen : (xs.take i).length = i := by rw [List.length_take]; omega
  have hkeep : Holds (write m dest (xs.take i)) src xs :=
    h.source.write (h.apart.mono (Nat.le_refl _) (by omega))
  refine ⟨xs[i], ?_, ?_, ?_, ?_⟩
  · exact hkeep.cell hi
  · intro hz
    exact h.nonzero (hz ▸ List.getElem_mem hi)
  · rw [write_mapped]
    exact h.target i hi
  · exact write_take_succ m dest hi

/-- The copied bytes do not reach the end of the address space. -/
theorem Copyable.index (h : Copyable m dest src xs) {i : Nat} (hi : i < xs.length) :
    i + 1 < 0x10000000000000000 := by
  have hb := h.source.mapped.bounds (by omega)
  omega

/-- Where a copy bounded by `count` stops: at the terminator or at the bound. -/
theorem bounded_stop (h : StringAt m src s) (count : Nat) {n : Nat}
    (ha : Apart src (s.length + 1) dest n) (hn : min count s.length ≤ n) :
    ∃ c, (write m dest (s.take count)).cell (src + (s.take count).length) = some c ∧
      (c = 0 ∨ ¬ (s.take count).length < count) := by
  have hlen : (s.take count).length = min count s.length := List.length_take
  have hkeep : StringAt (write m dest (s.take count)) src s :=
    h.write (ha.mono (Nat.le_refl _) (by omega))
  rcases Nat.lt_or_ge count s.length with hlt | hge
  · obtain ⟨c, hc, _, _⟩ := hkeep.char hlt
    exact ⟨c, by rw [hlen, Nat.min_eq_left (by omega)]; exact hc, Or.inr (by omega)⟩
  · have htake : s.take count = s := List.take_of_length_le hge
    rw [htake] at hkeep ⊢
    exact ⟨0, hkeep.terminator, Or.inl rfl⟩

/-- One round of the loop that strcpy and strcat copy with: byte `i` goes to the index `place i` of
`dest`. -/
def terminatedRound {σ : Type} [HasMem σ] (dest src : Nat) (place : Nat → Run σ Nat) (i : Nat) :
    Run σ (Turn Nat Nat) := do
  if (← load src i) != 0 then
    store dest (← place i) (← load src i)
    return .next (← add i 1)
  else
    return .done i

theorem strcpy_loop (σ : Type) [HasMem σ] (dest src : Nat) :
    (strcpy dest src : Run σ Nat) = while_ 0 (terminatedRound dest src pure) >>= fun i => do
      store dest i 0
      return dest := rfl

theorem strcat_loops (σ : Type) [HasMem σ] (dest src : Nat) :
    (strcat dest src : Run σ Nat) = (while_ 0 fun i => do
        if (← load dest i) != 0 then
          return .next (← add i 1)
        else
          return .done i) >>= fun i =>
      while_ 0 (terminatedRound dest src (add i)) >>= fun j => do
        store dest (← add i j) 0
        return dest := rfl

/-- The loop copies the string up to its terminator. -/
theorem terminated_yields {target : Nat} {place : Nat → Run σ Nat} {index : Nat → Nat}
    (h : StringAt m src s) (hm : Mapped m target (s.length + 1))
    (ha : Apart src (s.length + 1) target (s.length + 1))
    (hindex : ∀ i, dest + index i = target + i)
    (hplace : ∀ i, i < s.length → ∀ t, (place i).run t = .ok (index i) t)
    (hA : ∀ i, i ≤ s.length → A src i) :
    Yields A m (while_ 0 (terminatedRound dest src place)) s.length (write m target s) := by
  have hcopy : Copyable m target src s := by
    have hc := copyable_of_string s.length h hm ha (by omega)
    rwa [List.take_length] at hc
  have hb := h.bounds
  apply yields_while (fun i => i) (fun i => write m target (s.take i)) rfl (by simp)
    (k := s.length) (by omega)
  · intro i hi t ht
    obtain ⟨c, hc, hne, hmap, hw⟩ := hcopy.round hi
    rw [← hindex] at hmap hw
    simp [terminatedRound, ht, hc, hne, hmap, hplace i hi, hcopy.index hi, hw, hA i (by omega)]
  · intro t ht
    have hkeep : StringAt (write m target s) src s := h.write (ha.mono (by omega) (by omega))
    rw [List.take_length] at ht
    simp [terminatedRound, ht, hkeep.terminator, hA]

theorem strcpy_yields (h : StringAt m src s) (hm : Mapped m dest (s.length + 1))
    (ha : Apart src (s.length + 1) dest (s.length + 1)) (hA : ∀ i, i ≤ s.length → A src i) :
    Yields A m (strcpy dest src : Run σ Nat) dest (write m dest (s ++ [0])) := by
  rw [strcpy_loop]
  apply (terminated_yields h hm ha (fun _ => rfl) (fun i _ t => EStateM.run_pure i t) hA).bind
  intro t ht
  have hmap : ((write m dest s).cell (dest + s.length)).isSome := by
    rw [write_mapped]
    exact hm _ (by omega)
  simp [ht, hmap, write_append]

theorem strcpy_run (h : StringAt m src s) (hm : Mapped m dest (s.length + 1))
    (ha : Apart src (s.length + 1) dest (s.length + 1)) :
    (strcpy dest src).run m = .ok dest (write m dest (s ++ [0])) :=
  (strcpy_yields h hm ha (A := fun _ _ => True) fun _ _ => trivial).run

/-- One round of the loop that strncpy and strncat copy with: byte `i` goes to the index `place i`
of `dest`. -/
def copyRound {σ : Type} [HasMem σ] (dest src count : Nat) (place : Nat → Run σ Nat) (i : Nat) :
    Run σ (Turn Nat Nat) := do
  if ← (return (← load src i) != 0) <&&> (return decide (i < count)) then
    store dest (← place i) (← load src i)
    return .next (← add i 1)
  else
    return .done i

theorem strncpy_loops (σ : Type) [HasMem σ] (dest src count : Nat) :
    (strncpy dest src count : Run σ Nat) = while_ 0 (copyRound dest src count pure) >>= fun i => do
      while_ i fun i => do
        if i < count then
          store dest i 0
          return .next (← add i 1)
        else
          return .done ()
      return dest := rfl

theorem strncat_loops (σ : Type) [HasMem σ] (dest src count : Nat) :
    (strncat dest src count : Run σ Nat) = (while_ 0 fun i => do
        if (← load dest i) != 0 then
          return .next (← add i 1)
        else
          return .done i) >>= fun i =>
      while_ 0 (copyRound dest src count (add i)) >>= fun j => do
        store dest (← add i j) 0
        return dest := rfl

/-- The loop runs over bytes it copies until something stops it. -/
theorem copy_run {count target : Nat} {c : UInt8} {place : Nat → Run Mem Nat} {index : Nat → Nat}
    (h : Copyable m target src xs) (hindex : ∀ i, dest + index i = target + i)
    (hplace : ∀ i, i < xs.length → ∀ m, (place i).run m = .ok (index i) m)
    (hle : xs.length ≤ count) (hc : (write m target xs).cell (src + xs.length) = some c)
    (hstop : c = 0 ∨ ¬ xs.length < count) :
    (while_ 0 (copyRound dest src count place)).run m = .ok xs.length (write m target xs) := by
  have hb : src + xs.length < 0x10000000000000000 := by
    by_contra hout
    rw [Memory.bounded _ _ (by omega)] at hc
    cases hc
  apply loop_result (fun i => i) (fun i => write m target (xs.take i)) rfl (by simp)
    (k := xs.length) (by omega)
  · intro i hi
    obtain ⟨c, hc, hne, hmap, hw⟩ := h.round hi
    have hlt : i < count := by omega
    rw [← hindex] at hmap hw
    simp [copyRound, hc, hne, hmap, hplace i hi, h.index hi, hw, hlt]
  · rcases hstop with rfl | hge
    · simp [copyRound, hc]
    · simp [copyRound, hc, hge]

/-- The second loop of strncpy fills the rest of the bound with NUL bytes. -/
theorem strncpy_pad (xs : List UInt8) {count : Nat} (hm : Mapped m dest count)
    (hle : xs.length ≤ count) :
    (while_ xs.length fun i => do
      if i < count then
        store dest i 0
        return .next (← add i 1)
      else
        return .done () : Run Mem Unit).run (write m dest xs) =
      .ok () (write m dest (xs ++ List.replicate (count - xs.length) 0)) := by
  have hb := hm.length_lt (by decide)
  refine loop_result (fun i => xs.length + i)
    (fun i => write m dest (xs ++ List.replicate i 0)) (by simp) (by simp)
    (k := count - xs.length) (by omega) ?_ ?_
  · intro i hi
    have hmap : ((write m dest (xs ++ List.replicate i 0)).cell (dest + (xs.length + i))).isSome := by
      rw [write_mapped]
      exact hm _ (by omega)
    have hw := write_replicate_succ m dest xs i 0
    have hlt : xs.length + i < count := by omega
    have hadd : xs.length + i + 1 < 0x10000000000000000 := by omega
    simp [hlt, hmap, hw, hadd]
    omega
  · have hge : ¬ xs.length + (count - xs.length) < count := by omega
    simp [hge]

theorem strncpy_run {count : Nat} (h : StringAt m src s) (hm : Mapped m dest count)
    (ha : Apart src (s.length + 1) dest count) :
    (strncpy dest src count).run m =
      .ok dest (write m dest (s.take count ++ List.replicate (count - s.length) 0)) := by
  have hlen : (s.take count).length = min count s.length := List.length_take
  obtain ⟨c, hc, hstop⟩ := bounded_stop h count ha (by omega)
  have hcopy := copy_run (copyable_of_string _ h hm ha (by omega)) (fun _ => rfl)
    (fun i _ m => EStateM.run_pure i m) (by omega) hc hstop
  have hpad := strncpy_pad (s.take count) hm (by omega)
  rw [show count - (s.take count).length = count - s.length by omega] at hpad
  rw [strncpy_loops, bind_ok hcopy, bind_ok hpad, EStateM.run_pure]

theorem strcat_yields (hcur : StringAt m dest cur) (h : StringAt m src s)
    (hm : Mapped m (dest + cur.length) (s.length + 1))
    (ha : Apart src (s.length + 1) (dest + cur.length) (s.length + 1))
    (hd : ∀ i, i ≤ cur.length → A dest i) (hA : ∀ i, i ≤ s.length → A src i) :
    Yields A m (strcat dest src : Run σ Nat) dest (write m (dest + cur.length) (s ++ [0])) := by
  have hend := hm.bounds (by omega)
  rw [strcat_loops]
  apply (scan_yields hcur hd).bind
  apply (terminated_yields h hm ha (fun i => (Nat.add_assoc dest cur.length i).symm)
    (fun i hi t => add_run t (by omega)) hA).bind
  intro t ht
  have hmap : ((write m (dest + cur.length) s).cell (dest + (cur.length + s.length))).isSome := by
    rw [write_mapped, ← Nat.add_assoc]
    exact hm _ (by omega)
  have hadd : cur.length + s.length < 0x10000000000000000 := by omega
  simp [ht, hmap, hadd, write_append, Nat.add_assoc]

theorem strcat_run (hcur : StringAt m dest cur) (h : StringAt m src s)
    (hm : Mapped m (dest + cur.length) (s.length + 1))
    (ha : Apart src (s.length + 1) (dest + cur.length) (s.length + 1)) :
    (strcat dest src).run m = .ok dest (write m (dest + cur.length) (s ++ [0])) :=
  (strcat_yields hcur h hm ha (A := fun _ _ => True) (fun _ _ => trivial) fun _ _ => trivial).run

theorem strncat_run {count : Nat} (hcur : StringAt m dest cur) (h : StringAt m src s)
    (hm : Mapped m (dest + cur.length) (min count s.length + 1))
    (ha : Apart src (s.length + 1) (dest + cur.length) (min count s.length + 1)) :
    (strncat dest src count).run m =
      .ok dest (write m (dest + cur.length) (s.take count ++ [0])) := by
  have hlen : (s.take count).length = min count s.length := List.length_take
  have hend := hm.bounds (by omega)
  obtain ⟨c, hc, hstop⟩ := bounded_stop h count ha (by omega)
  have hcopy := copy_run (copyable_of_string _ h hm ha (by omega))
    (fun i => (Nat.add_assoc dest cur.length i).symm) (fun i hi m => add_run m (by omega))
    (by omega) hc hstop
  have hmap : ((write m (dest + cur.length) (s.take count)).cell
      (dest + (cur.length + (s.take count).length))).isSome := by
    rw [write_mapped, ← Nat.add_assoc]
    exact hm _ (by omega)
  have hadd : cur.length + (s.take count).length < 0x10000000000000000 := by omega
  rw [strncat_loops, bind_ok (scan_run hcur), bind_ok hcopy, bind_ok (add_run _ hadd),
    bind_ok (store_run 0 hmap), EStateM.run_pure, write_append, Nat.add_assoc]

end ZligcString
