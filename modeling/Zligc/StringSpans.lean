import Zligc.StringAgree
import Zligc.Spans

/-!
# The spans of strspn, strcspn and strpbrk

The two lengths are those of the longest prefixes inside and outside the set. Neither the
terminator of the string nor that of the set is a member of it, so a scan by both in turn
ends at the end of the string and cuts it into maximal runs.
-/
namespace ZligcString

open Effect CellMemory Zig Spans

/-- One round of a client that goes over a string by strspn and strcspn in turn and keeps how far
each of them took it. -/
def spansRound {σ : Type} [HasMem σ] (set : Nat) (cursor : Nat × List (Nat × Nat)) :
    Run σ (Turn (Nat × List (Nat × Nat)) (List (Nat × Nat))) := do
  if (← load cursor.1 0) != 0 then
    let inside ← strspn cursor.1 set
    let outside ← strcspn (cursor.1 + inside) set
    return .next (cursor.1 + inside + outside, cursor.2 ++ [(inside, outside)])
  else
    return .done cursor.2

def cutSpans {σ : Type} [HasMem σ] (str set : Nat) : Run σ (List (Nat × Nat)) :=
  while_ (str, []) (spansRound set)

/-- What the three functions say of the string `s` at `p` and the set `t` at `q`. -/
structure SpansPartition (m : Mem) (p q : Nat) (s t : List UInt8) : Prop where
  inside : ∃ k, (strspn p q).run m = .ok k m ∧ Longest (fun c => c ∈ t) s k
  outside : ∃ k, (strcspn p q).run m = .ok k m ∧ Longest (fun c => c ∉ t) s k
  breakset : ∀ k, (strcspn p q).run m = .ok k m →
    (strpbrk p q).run m = .ok (if k < s.length then some (p + k) else none) m
  set : ∀ q' t', StringAt m q' t' → (∀ c, c ∈ t' ↔ c ∈ t) →
    (strspn p q').run m = (strspn p q).run m ∧ (strcspn p q').run m = (strcspn p q).run m ∧
      (strpbrk p q').run m = (strpbrk p q).run m
  monotone : ∀ q' t' k l k' l', StringAt m q' t' → (∀ c, c ∈ t → c ∈ t') →
    (strspn p q).run m = .ok k m → (strcspn p q).run m = .ok l m →
    (strspn p q').run m = .ok k' m → (strcspn p q').run m = .ok l' m → k ≤ k' ∧ l' ≤ l
  one : ∀ k l, s ≠ [] → (strspn p q).run m = .ok k m → (strcspn p q).run m = .ok l m →
    (0 < k ↔ ¬ 0 < l)
  cut : ∃ runs, (cutSpans p q).run m = .ok (runs.map fun r => (r.1.length, r.2.length)) m ∧
    MaximalRuns (fun c => c ∈ t) s runs

section Spanning

variable {m : Mem} {p q : Nat} {s t : List UInt8}

/-- A scan that reports its place wherever it ends reports the length of a prefix. -/
theorem span_run (hs : StringAt m p s) (ht : StringAt m q t) (hit : Bool) :
    (scanSet p q hit (fun i => i) (fun i => i)).run m =
      .ok (s.takeWhile fun c => !(decide (c ∈ t) == hit)).length m := by
  have hle := takeWhile_length_le (fun c => !(decide (c ∈ t) == hit)) s
  rw [scanSet_run hs ht, findIdx_eq_takeWhile]
  split
  · rfl
  · rename_i hge
    exact congrArg (fun k => EStateM.Result.ok k m) (by omega)

theorem strspn_run (hs : StringAt m p s) (ht : StringAt m q t) :
    (strspn p q).run m = .ok (s.takeWhile fun c => decide (c ∈ t)).length m := by
  rw [strspn, span_run hs ht]
  simp

theorem strcspn_run (hs : StringAt m p s) (ht : StringAt m q t) :
    (strcspn p q).run m = .ok (s.takeWhile fun c => !decide (c ∈ t)).length m := by
  rw [strcspn, span_run hs ht]
  simp

theorem strpbrk_run (hs : StringAt m p s) (ht : StringAt m q t) :
    (strpbrk p q).run m =
      .ok (if (s.takeWhile fun c => !decide (c ∈ t)).length < s.length then
        some (p + (s.takeWhile fun c => !decide (c ∈ t)).length) else none) m := by
  rw [strpbrk, scanSet_run hs ht, findIdx_eq_takeWhile]
  simp

theorem span_rest (hs : StringAt m p s) (f : UInt8 → Bool) :
    StringAt m (p + (s.takeWhile f).length) (s.dropWhile f) := by
  rw [← List.takeWhile_append_dropWhile (p := f) (l := s)] at hs
  exact hs.right

theorem spansRound_run (hs : StringAt m p s) (ht : StringAt m q t) (hne : s ≠ [])
    (acc : List (Nat × Nat)) :
    ∃ a b, (spansRound q (p, acc)).run m = .ok (.next (p + a + b, acc ++ [(a, b)])) m ∧
      a = (s.takeWhile fun c => decide (c ∈ t)).length ∧
      b = ((s.dropWhile fun c => decide (c ∈ t)).takeWhile fun c => !decide (c ∈ t)).length := by
  refine ⟨_, _, ?_, rfl, rfl⟩
  obtain ⟨c, hc, h0⟩ := hs.read (Nat.zero_le s.length)
  have hc0 : (c != 0) = true := by
    rw [bne_iff_ne]
    intro he
    exact hne (List.length_eq_zero_iff.mp (h0.mp he).symm)
  have hinside := strspn_run hs ht
  have houtside := strcspn_run (span_rest hs fun c => decide (c ∈ t)) ht
  rw [spansRound, bind_ok (load_run hc), if_pos hc0, bind_ok hinside, bind_ok houtside,
    EStateM.run_pure]

/-- Every round takes the scan over one pair of runs. -/
theorem cut_run (hs : StringAt m p s) (ht : StringAt m q t) {n : Nat} (hn : s.length < n)
    (acc : List (Nat × Nat)) :
    (loop .exhausted (spansRound q) n (p, acc)).run m =
      .ok (acc ++ (cuts (fun c => decide (c ∈ t)) s).map fun r => (r.1.length, r.2.length)) m := by
  induction s using cuts.induct (fun c => decide (c ∈ t)) generalizing p n acc with
  | case1 =>
    have hend : m.cell p = some 0 := hs.terminator
    rw [cuts_nil, List.map_nil, List.append_nil]
    apply loop_done (by omega)
    simp [spansRound, hend]
  | case2 s hne ih =>
    obtain ⟨n, rfl⟩ : ∃ l, n = l + 1 := ⟨n - 1, by omega⟩
    have hless := behind_length_lt (fun c => decide (c ∈ t)) hne
    have hrest := span_rest (span_rest hs fun c => decide (c ∈ t)) fun c => !decide (c ∈ t)
    obtain ⟨a, b, hround, rfl, rfl⟩ := spansRound_run hs ht hne acc
    rw [loop_next hround, ih hrest (by omega), cuts_ne_nil hne]
    simp

end Spanning

theorem spans_partition {m : Mem} {p q : Nat} {s t : List UInt8} (hs : StringAt m p s)
    (ht : StringAt m q t) : SpansPartition m p q s t := by
  constructor
  · exact ⟨_, strspn_run hs ht, longest_takeWhile (by simp) s⟩
  · exact ⟨_, strcspn_run hs ht, longest_takeWhile (by simp) s⟩
  · intro k hk
    rw [strcspn_run hs ht] at hk
    obtain ⟨rfl, _⟩ := EStateM.Result.ok.inj hk
    exact strpbrk_run hs ht
  · intro q' t' ht' hsame
    simp only [strspn_run hs ht, strspn_run hs ht', strcspn_run hs ht, strcspn_run hs ht',
      strpbrk_run hs ht, strpbrk_run hs ht', hsame, and_self]
  · intro q' t' k l k' l' ht' hsub hk hl hk' hl'
    rw [strspn_run hs ht] at hk
    rw [strcspn_run hs ht] at hl
    rw [strspn_run hs ht'] at hk'
    rw [strcspn_run hs ht'] at hl'
    obtain ⟨rfl, _⟩ := EStateM.Result.ok.inj hk
    obtain ⟨rfl, _⟩ := EStateM.Result.ok.inj hl
    obtain ⟨rfl, _⟩ := EStateM.Result.ok.inj hk'
    obtain ⟨rfl, _⟩ := EStateM.Result.ok.inj hl'
    constructor
    · exact takeWhile_length_mono (by simpa using hsub) s
    · apply takeWhile_length_mono
      intro c hc
      simp only [Bool.not_eq_true', decide_eq_false_iff_not] at hc ⊢
      exact fun hmem => hc (hsub c hmem)
  · intro k l hne hk hl
    rw [strspn_run hs ht] at hk
    rw [strcspn_run hs ht] at hl
    obtain ⟨rfl, _⟩ := EStateM.Result.ok.inj hk
    obtain ⟨rfl, _⟩ := EStateM.Result.ok.inj hl
    obtain ⟨c, s, rfl⟩ := List.exists_cons_of_ne_nil hne
    rw [takeWhile_pos, takeWhile_pos]
    simp
  · have hb := hs.bounds
    have hrun := cut_run hs ht (n := 0x10000000000000000) (by omega) []
    exact ⟨_, hrun, cuts_runs (by simp) s⟩

theorem spans_partition_example : SpansPartition orderedMem 3 1 [97, 98] [97] :=
  spans_partition ⟨by decide, by decide⟩ ⟨by decide, by decide⟩

end ZligcString
