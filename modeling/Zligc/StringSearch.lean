import Zligc.StringCompare
import Zligc.Occurrence

/-!
# What the search functions find

strchr finds the first place of a byte in a string and its terminator, memchr in
an array; strstr finds the first place of a string; the other three go to the
first byte that is, or is not, in a set.
-/
namespace ZligcString

open Effect CellMemory Zig LexOrder Occurrence

variable {σ : Type} [HasMem σ] [Watched σ] {A : Nat → Nat → Prop} {m : Mem} {p q : Nat}
  {s t xs : List UInt8}

/-- A round of a loop that reads bytes one by one has not come to the first `c`. -/
theorem before_idxOf {c : UInt8} {i : Nat} (hi : i < xs.idxOf c) (hx : i < xs.length) :
    xs[i] ≠ c := by
  intro he
  apply not_mem_take_idxOf xs c
  rw [List.mem_take_iff_getElem]
  exact ⟨i, by omega, he⟩

theorem memchr_yields (h : Holds m p xs) (c : UInt8) (hA : ∀ i, i < xs.length → A p i) :
    Yields A m (memchr p (widen c) xs.length : Run σ (Option Nat)) (addressOf p xs c) m := by
  have hlen := h.mapped.length_lt (by decide)
  have hle := List.idxOf_le_length (l := xs) (a := c)
  apply yields_while (fun i => i) (fun _ => m) rfl rfl (k := xs.idxOf c) (by omega)
  · intro i hi u hu
    have hx : i < xs.length := by omega
    have hne := before_idxOf hi hx
    have hadd : i + 1 < 0x10000000000000000 := by omega
    simp [hu, hx, h.cell hx, hne, hadd, hA i hx]
  · intro u hu
    by_cases hc : c ∈ xs
    · have hx := List.idxOf_lt_length_of_mem hc
      simp [hu, hx, h.cell hx, hA _ hx, addressOf, hc]
    · rw [List.idxOf_eq_length hc]
      simp [hu, addressOf, hc]

theorem strchr_yields (h : StringAt m p s) (c : UInt8) (hA : ∀ i, i ≤ s.length → A p i) :
    Yields A m (strchr p (widen c) : Run σ (Option Nat)) (addressOf p (s ++ [0]) c) m := by
  have hb := h.bounds
  have hle := List.idxOf_le_length (l := s) (a := c)
  rw [addressOf_concat]
  apply Yields.bind (n := m)
    (a := if c ∈ s then .returned (some (p + s.idxOf c)) else .fell s.length)
  · apply yields_while (fun i => i) (fun _ => m) rfl rfl (k := s.idxOf c) (by omega)
    · intro i hi u hu
      have hx : i < s.length := by omega
      have hne := before_idxOf hi hx
      have h0 : s[i] ≠ 0 := fun h0 => h.nonzero (h0 ▸ List.getElem_mem hx)
      have hadd : i + 1 < 0x10000000000000000 := by omega
      simp [hu, h.bytes.left.cell hx, h0, hne, hadd, hA i (by omega)]
    · intro u hu
      by_cases hc : c ∈ s
      · have hx := List.idxOf_lt_length_of_mem hc
        have hcell := h.bytes.left.cell hx
        have hc0 : c ≠ 0 := fun h0 => h.nonzero (h0 ▸ hc)
        rw [List.getElem_idxOf] at hcell
        simp [hu, hcell, hc, hc0, hA _ hle]
      · rw [List.idxOf_eq_length hc]
        simp [hu, h.terminator, hc, hA]
  · intro u hu
    by_cases hc : c ∈ s
    · simp [hu, hc]
    · rw [if_neg hc, if_neg hc]
      by_cases hc0 : c = 0 <;> simp [hu, hc0]

/-- In an empty string only the character 0 is looked for, and it is not cast. -/
theorem strchr_empty (h : StringAt m p []) (ch : Int32) (hA : A p 0) :
    Yields A m (strchr p ch : Run σ (Option Nat)) (if ch = 0 then some p else none) m := by
  have hend : m.cell p = some 0 := h.terminator
  apply Yields.bind (a := .fell 0) (n := m)
  · apply yields_while (fun i => i) (fun _ => m) rfl rfl (k := 0) (by omega)
    · exact fun i hi => absurd hi (Nat.not_lt_zero i)
    · intro u hu
      simp [hu, hend, hA]
  · intro u hu
    by_cases hch : ch = 0 <;> simp [hu, hch]

/-- A character that is no byte stops strchr at the first byte of the string. -/
theorem strchr_fault (h : StringAt m p s) (hs : s ≠ []) {ch : Int32}
    (hch : ¬ (0 ≤ ch.toInt ∧ ch.toInt < 256)) {u : σ} (hu : HasMem.mem u = m) :
    (strchr p ch : Run σ (Option Nat)).run u =
      .error .integerCast (HasMem.reading p 0 (HasMem.reading p 0 u)) := by
  have hx : 0 < s.length := List.length_pos_iff.mpr hs
  have h0 : s[0] ≠ 0 := fun h0 => h.nonzero (h0 ▸ List.getElem_mem hx)
  have hcell : m.cell p = some s[0] := h.bytes.left.cell hx
  apply bind_error (loop_error (by decide) _) _
  simp [hu, hcell, h0, castU8_fault _ hch]

/-- A string and its terminator lie where a byte is looked for, which therefore is a place to
find it or not. -/
theorem isSome_addressOf {c : UInt8} (hc : c ≠ 0) :
    (addressOf p (s ++ [0]) c).isSome = decide (c ∈ s) := by
  rw [addressOf_concat]
  by_cases h : c ∈ s <;> simp [h, hc]

/-- The loop of the three set functions stops at the first byte that is in the set, or is not. -/
theorem scanSet_yields {α : Type} (hs : StringAt m p s) (ht : StringAt m q t) (hit : Bool)
    (left ended : Nat → α) (hp : ∀ i, i ≤ s.length → A p i) (hq : ∀ i, i ≤ t.length → A q i) :
    Yields A m (scanSet p q hit left ended : Run σ α)
      (if s.findIdx (fun c => decide (c ∈ t) == hit) < s.length then
        left (s.findIdx fun c => decide (c ∈ t) == hit)
      else ended s.length) m := by
  have hb := hs.bounds
  have hle : s.findIdx (fun c => decide (c ∈ t) == hit) ≤ s.length := List.findIdx_le_length
  apply yields_while (fun i => i) (fun _ => m) rfl rfl
    (k := s.findIdx fun c => decide (c ∈ t) == hit) (by omega)
  · intro i hi
    have hx : i < s.length := by omega
    have h0 : s[i] ≠ 0 := fun h0 => hs.nonzero (h0 ▸ List.getElem_mem hx)
    have hadd : i + 1 < 0x10000000000000000 := by omega
    have hno := List.not_of_lt_findIdx hi
    apply (yields_load (hs.bytes.left.cell hx) (hp i (by omega))).bind
    rw [if_pos (by simpa using h0)]
    apply (yields_load (hs.bytes.left.cell hx) (hp i (by omega))).bind
    apply (strchr_yields ht s[i] hq).bind
    rw [isSome_addressOf h0, if_neg (Bool.eq_false_iff.mp hno)]
    exact (yields_add hadd).bind (yields_pure _)
  · by_cases hx : s.findIdx (fun c => decide (c ∈ t) == hit) < s.length
    · have h0 : s[s.findIdx fun c => decide (c ∈ t) == hit] ≠ 0 :=
        fun h0 => hs.nonzero (h0 ▸ List.getElem_mem hx)
      have hyes := List.findIdx_getElem (w := hx)
      rw [if_pos hx]
      apply (yields_load (hs.bytes.left.cell hx) (hp _ hle)).bind
      rw [if_pos (by simpa using h0)]
      apply (yields_load (hs.bytes.left.cell hx) (hp _ hle)).bind
      apply (strchr_yields ht _ hq).bind
      rw [isSome_addressOf h0, if_pos hyes]
      exact yields_pure _
    · obtain hend : s.findIdx (fun c => decide (c ∈ t) == hit) = s.length := by omega
      rw [if_neg hx, hend]
      intro u hu
      simp [hu, hs.terminator, hp]

theorem strstrMatch_yields (hs : StringAt m p s) (ht : StringAt m q t) {i : Nat}
    (hi : i + t.length ≤ s.length) (hp : ∀ i, i ≤ s.length → A p i)
    (hq : ∀ i, i ≤ t.length → A q i) :
    Yields A m (strstrMatch p q t.length i : Run σ (Exit (Option Nat) Unit))
      (if t <+: s.drop i then .returned (some (p + i)) else .fell ()) m := by
  have hb := hs.bounds
  have hdrop := hs.bytes.left.drop (i := i) (by omega)
  obtain ⟨z, s', t', hz, hzt, hpart⟩ := split_common (s.drop i) t
  have hlen : s.length - i = z.length + s'.length := by
    rw [← List.length_drop, hz, List.length_append]
  have hbytes := ht.bytes.left
  rw [hz] at hdrop ⊢
  rw [hzt] at hbytes hi hq
  rw [hzt]
  simp only [List.prefix_append_right_inj, List.length_append] at hi hq ⊢
  apply yields_while (fun j => j) (fun _ => m) rfl rfl (k := z.length) (by omega)
  · intro j hj u hu
    have hlt : j < z.length + t'.length := by omega
    have hadd : i + j < 0x10000000000000000 := by omega
    have hadd' : j + 1 < 0x10000000000000000 := by omega
    have hcell := hdrop.left.cell hj
    rw [Nat.add_assoc] at hcell
    simp [hu, hlt, hadd, hadd', hcell, hbytes.left.cell hj, hp (i + j) (by omega),
      hq j (by omega)]
  · intro u hu
    cases t' with
    | nil => simp [hu]
    | cons d t' =>
      cases s' with
      | nil =>
        simp only [List.length_nil, List.length_cons] at hlen hi
        omega
      | cons c s' =>
        have hcd : c ≠ d := hpart c d rfl rfl
        have hadd : i + z.length < 0x10000000000000000 := by omega
        have hcell := hdrop.middle
        rw [Nat.add_assoc] at hcell
        have hcell' := hbytes.middle
        have hpA := hp (i + z.length) (by omega)
        have hqA := hq z.length (by omega)
        simp [hu, hadd, hcell, hcell', hpA, hqA, hcd, Ne.symm hcd, List.cons_prefix_cons]

/-- strstr tries every place at which the needle still fits. -/
theorem strstr_yields (hs : StringAt m p s) (ht : StringAt m q t)
    (hp : ∀ i, i ≤ s.length → A p i) (hq : ∀ i, i ≤ t.length → A q i) :
    Yields A m (strstr p q : Run σ (Option Nat)) ((locate t s).map (p + ·)) m := by
  have hb := hs.bounds
  apply (strlen_yields hs hp).bind
  apply (strlen_yields ht hq).bind
  by_cases hlong : t.length > s.length
  · rw [if_pos hlong, locate_long hlong]
    exact yields_pure _
  · rw [if_neg hlong]
    have hsub : s.length - t.length + 1 < 0x10000000000000000 := by omega
    have hmisses := misses_le t s
    apply yields_while (fun i => i) (fun _ => m) rfl rfl (k := misses t s) (by omega)
    · intro i hi
      have hmatch : Yields A m (strstrMatch p q t.length i : Run σ (Exit (Option Nat) Unit)) _ m :=
        strstrMatch_yields hs ht (by omega) hp hq
      rw [if_neg (not_before_misses (by omega) hi)] at hmatch
      apply (yields_sub (by omega)).bind
      apply (yields_add hsub).bind
      rw [if_pos (by omega)]
      apply hmatch.bind
      exact (yields_add (by omega)).bind (yields_pure _)
    · apply (yields_sub (by omega)).bind
      apply (yields_add hsub).bind
      unfold misses
      cases hloc : locate t s with
      | none =>
        rw [Option.getD_none, if_neg (Nat.lt_irrefl _)]
        exact yields_pure _
      | some k =>
        have hk := locate_bound hloc
        have hmatch : Yields A m (strstrMatch p q t.length k : Run σ (Exit (Option Nat) Unit)) _ m :=
          strstrMatch_yields hs ht hk hp hq
        rw [if_pos (locate_eq_some_iff.mp hloc).2.1] at hmatch
        rw [Option.getD_some, if_pos (by omega)]
        apply hmatch.bind
        exact yields_pure _

end ZligcString
