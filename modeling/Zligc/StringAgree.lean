import Zligc.StringSearch

/-!
# The agreement of the search functions

Searching a string for a byte, for the string of that byte or for the set of that
byte finds one and the same place.
-/
namespace ZligcString

open Effect CellMemory Zig Occurrence

/-- What the search functions say of the string `s` at `p`. -/
structure SearchesAgree (m : Mem) (p : Nat) (s : List UInt8) : Prop where
  length : (strlen p).run m = .ok s.length m
  byte : ∀ q c, StringAt m q [c] → ∃ r k,
    (strchr p (widen c)).run m = .ok r m ∧ (memchr p (widen c) (s.length + 1)).run m = .ok r m ∧
    (strstr p q).run m = .ok r m ∧ (strpbrk p q).run m = .ok r m ∧
    (strcspn p q).run m = .ok k m ∧ (r = none ↔ c ∉ s) ∧
    (c ∈ s → r = some (p + k) ∧ s[k]? = some c ∧ c ∉ s.take k)
  terminator : (strchr p 0).run m = .ok (some (p + s.length)) m ∧
    (memchr p 0 (s.length + 1)).run m = .ok (some (p + s.length)) m
  first : ∀ q b t k, StringAt m q (b :: t) → (strstr p q).run m = .ok (some (p + k)) m →
    ∃ j, j ≤ k ∧ (strchr p (widen b)).run m = .ok (some (p + j)) m

section Agreement

variable {m : Mem} {p q : Nat} {s t : List UInt8}

theorem strchr_run (h : StringAt m p s) (c : UInt8) :
    (strchr p (widen c)).run m = .ok (addressOf p (s ++ [0]) c) m :=
  (strchr_yields h c (A := fun _ _ => True) fun _ _ => trivial).run

theorem memchr_run {xs : List UInt8} (h : Holds m p xs) (c : UInt8) :
    (memchr p (widen c) xs.length).run m = .ok (addressOf p xs c) m :=
  (memchr_yields h c (A := fun _ _ => True) fun _ _ => trivial).run

theorem strstr_run (hs : StringAt m p s) (ht : StringAt m q t) :
    (strstr p q).run m = .ok ((locate t s).map (p + ·)) m :=
  (strstr_yields hs ht (A := fun _ _ => True) (fun _ _ => trivial) fun _ _ => trivial).run

theorem scanSet_run {α : Type} (hs : StringAt m p s) (ht : StringAt m q t) (hit : Bool)
    (left ended : Nat → α) :
    (scanSet p q hit left ended).run m =
      .ok (if s.findIdx (fun c => decide (c ∈ t) == hit) < s.length then
        left (s.findIdx fun c => decide (c ∈ t) == hit) else ended s.length) m :=
  (scanSet_yields hs ht hit left ended (A := fun _ _ => True) (fun _ _ => trivial)
    fun _ _ => trivial).run

/-- memchr over a string and its terminator. -/
theorem memchr_string (h : StringAt m p s) (c : UInt8) :
    (memchr p (widen c) (s.length + 1)).run m = .ok (addressOf p (s ++ [0]) c) m := by
  have hrun := memchr_run h.bytes c
  rwa [List.length_append, List.length_singleton] at hrun

theorem idxOf_le {b : UInt8} {k : Nat} (h : s[k]? = some b) : s.idxOf b ≤ k := by
  by_contra hlt
  obtain ⟨hk, hb⟩ := List.getElem?_eq_some_iff.mp h
  exact before_idxOf (Nat.lt_of_not_le hlt) hk hb

theorem findIdx_singleton (c : UInt8) (s : List UInt8) :
    (s.findIdx fun b => decide (b ∈ [c]) == true) = s.idxOf c := by
  rw [List.idxOf]
  congr 1
  funext b
  rw [Bool.eq_iff_iff]
  simp

end Agreement

theorem searches_agree {m : Mem} {p : Nat} {s : List UInt8} (hs : StringAt m p s) :
    SearchesAgree m p s := by
  constructor
  · exact strlen_run hs
  · intro q c hq
    have hc : c ≠ 0 := fun h0 => hq.nonzero (by simp [h0])
    refine ⟨if c ∈ s then some (p + s.idxOf c) else none, s.idxOf c, ?_, ?_, ?_, ?_, ?_, ?_, ?_⟩
    · rw [strchr_run hs, addressOf_concat, if_neg hc]
    · rw [memchr_string hs, addressOf_concat, if_neg hc]
    · rw [strstr_run hs hq, locate_singleton]
      split <;> rfl
    · rw [strpbrk, scanSet_run hs hq, findIdx_singleton]
      simp only [List.idxOf_lt_length_iff]
    · rw [strcspn, scanSet_run hs hq, findIdx_singleton]
      by_cases hmem : c ∈ s
      · rw [if_pos (List.idxOf_lt_length_of_mem hmem)]
      · rw [List.idxOf_eq_length hmem, if_neg (Nat.lt_irrefl _)]
    · split <;> simp [*]
    · intro hmem
      have hlt := List.idxOf_lt_length_of_mem hmem
      refine ⟨if_pos hmem, ?_, not_mem_take_idxOf s c⟩
      rw [List.getElem?_eq_getElem hlt, List.getElem_idxOf]
  · have h0 : addressOf p (s ++ [0]) 0 = some (p + s.length) := by
      rw [addressOf_concat, if_neg hs.nonzero, if_pos rfl]
    constructor
    · exact (strchr_run hs 0).trans (by rw [h0])
    · exact (memchr_string hs 0).trans (by rw [h0])
  · intro q b t k ht hfound
    rw [strstr_run hs ht] at hfound
    obtain ⟨i, hloc, hi⟩ := Option.map_eq_some_iff.mp (EStateM.Result.ok.inj hfound).1
    obtain rfl : i = k := Nat.add_left_cancel hi
    obtain ⟨rest, hrest⟩ := (locate_eq_some_iff.mp hloc).2.1
    have hget : s[i]? = some b := by
      have hhead := congrArg (·[0]?) hrest
      simpa using hhead.symm
    have hmem : b ∈ s := List.mem_of_getElem? hget
    refine ⟨s.idxOf b, idxOf_le hget, ?_⟩
    rw [strchr_run hs, addressOf_concat, if_pos hmem]

theorem searches_agree_example : SearchesAgree orderedMem 3 [97, 98] :=
  searches_agree ⟨by decide, by decide⟩

end ZligcString
