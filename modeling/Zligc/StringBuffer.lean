import Zligc.StringCopy

/-!
# A string buffer under any sequence of copying calls

The abstract state of a buffer is the string it holds. Every call of strcpy,
strcat, strncat or strncpy that meets its C precondition refines an operation on
that string, keeps the terminator inside the buffer and touches nothing else.
-/
namespace ZligcString

open Effect CellMemory Zig

inductive Call where
  | strcpy (src : Nat)
  | strcat (src : Nat)
  | strncat (src count : Nat)
  | strncpy (src count : Nat)
  deriving DecidableEq, Repr

def Call.src : Call → Nat
  | .strcpy src | .strcat src | .strncat src _ | .strncpy src _ => src

def Call.run (d : Nat) : Call → Run Mem Nat
  | .strcpy src => ZligcString.strcpy d src
  | .strcat src => ZligcString.strcat d src
  | .strncat src count => ZligcString.strncat d src count
  | .strncpy src count => ZligcString.strncpy d src count

/-- The string after the call, from the string before it and the source string. -/
def Call.denote (cur s : List UInt8) : Call → List UInt8
  | .strcpy _ => s
  | .strcat _ => cur ++ s
  | .strncat _ count => cur ++ s.take count
  | .strncpy _ _ => s

/-- The C precondition of the call on a buffer of `C` bytes. -/
def Call.Fits (C : Nat) (cur s : List UInt8) : Call → Prop
  | .strcpy _ => s.length < C
  | .strcat _ => cur.length + s.length < C
  | .strncat _ count => cur.length + min count s.length < C
  | .strncpy _ count => s.length < count ∧ count ≤ C

/-- `C` mapped bytes at `d` hold the string `cur` with its terminator. -/
structure Buffer (m : Mem) (d C : Nat) (cur : List UInt8) : Prop where
  string : StringAt m d cur
  room : cur.length < C
  mapped : Mapped m d C

/-- Memory `m'` differs from `m` at most in the `C` bytes at `d`. -/
def Outside (m m' : Mem) (d C : Nat) : Prop := ∀ p, p < d ∨ d + C ≤ p → m'.cell p = m.cell p

/-- The sequences of calls that meet their preconditions, with the abstract string they
lead from and to. Sources are read in the memory the sequence starts from. -/
inductive Legal (m : Mem) (d C : Nat) : List UInt8 → List Call → List UInt8 → Prop where
  | nil (cur : List UInt8) : Legal m d C cur [] cur
  | cons {c : Call} {calls : List Call} {cur s final : List UInt8} :
      StringAt m c.src s → Apart c.src (s.length + 1) d C → c.Fits C cur s →
      Legal m d C (c.denote cur s) calls final → Legal m d C cur (c :: calls) final

/-- Perform the calls in order and collect what they return. -/
def runCalls (d : Nat) : List Call → Run Mem (List Nat)
  | [] => pure []
  | c :: calls => do
    let r ← c.run d
    let rs ← runCalls d calls
    return r :: rs

section Steps

variable {m : Mem} {d C : Nat} {cur s : List UInt8}

/-- A write of part of the buffer that ends a string there, seen from the outside. -/
theorem Buffer.write {t : List UInt8} (h : Buffer m d C cur) (rest : List UInt8) (ht : Holds m d t)
    (ht0 : 0 ∉ t) (hs0 : 0 ∉ s) (hfit : t.length + (s ++ 0 :: rest).length ≤ C) :
    Buffer (write m (d + t.length) (s ++ 0 :: rest)) d C (t ++ s) ∧
      Outside m (write m (d + t.length) (s ++ 0 :: rest)) d C := by
  refine ⟨⟨?_, ?_, h.mapped.write _ _⟩, ?_⟩
  · exact stringAt_write ht ht0 hs0 (h.mapped.part (by omega) (by omega))
  · simp only [List.length_append, List.length_cons] at hfit ⊢
    omega
  · intro p hp
    exact write_outside _ _ _ _ (by omega)

/-- One call of the buffer. -/
theorem call_refines (hbuf : Buffer m d C cur) (c : Call) (hs : StringAt m c.src s)
    (ha : Apart c.src (s.length + 1) d C) (hfit : c.Fits C cur s) :
    ∃ m', (c.run d).run m = .ok d m' ∧ Buffer m' d C (c.denote cur s) ∧ Outside m m' d C := by
  have hcur := hbuf.string
  cases c with
  | strcpy src =>
    simp only [Call.Fits] at hfit
    have hw := hbuf.write [] (t := []) (s := s) (fun i hi => by simp at hi) (by simp)
      hs.nonzero (by simp; omega)
    refine ⟨_, strcpy_run hs (hbuf.mapped.part (by omega) (by omega)) (ha.part (by omega)
      (by omega)), hw⟩
  | strcat src =>
    simp only [Call.Fits] at hfit
    have hw := hbuf.write [] hcur.bytes.left hcur.nonzero hs.nonzero (by simp; omega)
    exact ⟨_, strcat_run hcur hs (hbuf.mapped.part (by omega) (by omega)) (ha.part (by omega)
      (by omega)), hw⟩
  | strncat src count =>
    simp only [Call.Fits] at hfit
    have hw := hbuf.write [] (s := s.take count) hcur.bytes.left hcur.nonzero
      (fun h0 => hs.nonzero (List.mem_of_mem_take h0)) (by simp; omega)
    exact ⟨_, strncat_run hcur hs (hbuf.mapped.part (by omega) (by omega)) (ha.part (by omega)
      (by omega)), hw⟩
  | strncpy src count =>
    obtain ⟨hlt, hle⟩ := hfit
    have hw := hbuf.write (List.replicate (count - s.length - 1) 0) (t := []) (s := s)
      (fun i hi => by simp at hi) (by simp) hs.nonzero (by simp; omega)
    have hpart : Mapped m d count := hbuf.mapped.part (by omega) (by omega)
    have hrun := strncpy_run hs hpart (ha.part (by omega) (by omega))
    rw [List.take_of_length_le (by omega), show count - s.length = count - s.length - 1 + 1 by omega,
      List.replicate_succ] at hrun
    exact ⟨_, hrun, hw⟩

end Steps

theorem Outside.trans {m m' m'' : Mem} {d C : Nat} (h : Outside m m' d C)
    (h' : Outside m' m'' d C) : Outside m m'' d C :=
  fun p hp => (h' p hp).trans (h p hp)

/-- A source apart from the buffer reads the same after calls on the buffer. -/
theorem source_kept {m m' : Mem} {d C src : Nat} {s : List UInt8} (h : StringAt m src s)
    (ha : Apart src (s.length + 1) d C) (hout : Outside m m' d C) : StringAt m' src s := by
  apply h.congr
  intro i hi
  apply hout
  by_contra hin
  exact ha i hi (src + i - d) (by omega) (by omega)

/-- A whole sequence, started in any memory that agrees with `m` outside the buffer. -/
theorem calls_refine {m m' : Mem} {d C : Nat} {cur final : List UInt8} {calls : List Call}
    (h : Legal m d C cur calls final) (hbuf : Buffer m' d C cur) (hout : Outside m m' d C) :
    ∃ m'', (runCalls d calls).run m' = .ok (List.replicate calls.length d) m'' ∧
      Buffer m'' d C final ∧ Outside m m'' d C := by
  induction h generalizing m' with
  | nil cur => exact ⟨m', rfl, hbuf, hout⟩
  | cons hs ha hfit _ ih =>
    obtain ⟨m₁, hrun, hbuf₁, hout₁⟩ := call_refines hbuf _ (source_kept hs ha hout) ha hfit
    obtain ⟨m₂, hruns, hbuf₂, hout₂⟩ := ih hbuf₁ (hout.trans hout₁)
    refine ⟨m₂, ?_, hbuf₂, hout₂⟩
    rw [runCalls, bind_ok hrun, bind_ok hruns, EStateM.run_pure, List.length_cons,
      List.replicate_succ]

/-- Every initial part of a legal sequence is a legal sequence. -/
theorem Legal.take {m : Mem} {d C : Nat} {cur final : List UInt8} {calls : List Call}
    (h : Legal m d C cur calls final) (k : Nat) : ∃ s, Legal m d C cur (calls.take k) s := by
  induction h generalizing k with
  | nil cur => exact ⟨cur, by rw [List.take_nil]; exact .nil cur⟩
  | @cons c calls cur s final hs ha hfit _ ih =>
    cases k with
    | zero => exact ⟨cur, .nil cur⟩
    | succ k =>
      obtain ⟨t, ht⟩ := ih k
      exact ⟨t, .cons hs ha hfit ht⟩

/-- After every call of a legal sequence the buffer holds the abstract string, terminated
inside its bytes and measured by strlen; nothing outside has changed and every call
returned the buffer. -/
theorem buffer_refinement {m : Mem} {d C : Nat} {cur final : List UInt8} {calls : List Call}
    (hbuf : Buffer m d C cur) (h : Legal m d C cur calls final) (k : Nat)
    (hk : k ≤ calls.length) :
    ∃ m' s, Legal m d C cur (calls.take k) s ∧
      (runCalls d (calls.take k)).run m = .ok (List.replicate k d) m' ∧
      StringAt m' d s ∧ s.length < C ∧ (strlen d).run m' = .ok s.length m' ∧
      ∀ p, p < d ∨ d + C ≤ p → m'.cell p = m.cell p := by
  obtain ⟨s, hs⟩ := h.take k
  obtain ⟨m', hrun, hbuf', hout⟩ := calls_refine hs hbuf (fun p _ => rfl)
  rw [List.length_take, Nat.min_eq_left hk] at hrun
  exact ⟨m', s, hs, hrun, hbuf'.string, hbuf'.room, strlen_run hbuf'.string, hout⟩

/-- A buffer of six bytes at 8 after the sources "ab" at 1 and "c" at 4. -/
def exampleMem : Mem :=
  image 1 [97, 98, 0, 99, 0, 0, 0, 0, 7, 7, 7, 7, 7] Nat.one_pos (by decide)

theorem buffer_refinement_example :
    ∃ m' s, Legal exampleMem 8 6 [] ([.strcpy 1, .strncat 4 9, .strcat 1].take 3) s ∧
      (runCalls 8 ([.strcpy 1, .strncat 4 9, .strcat 1].take 3)).run exampleMem =
        .ok (List.replicate 3 8) m' ∧
      StringAt m' 8 s ∧ s.length < 6 ∧ (strlen 8).run m' = .ok s.length m' ∧
      ∀ p, p < 8 ∨ 8 + 6 ≤ p → m'.cell p = exampleMem.cell p := by
  have hab : StringAt exampleMem 1 [97, 98] := ⟨by decide, by decide⟩
  have hc : StringAt exampleMem 4 [99] := ⟨by decide, by decide⟩
  refine buffer_refinement ⟨⟨by decide, by decide⟩, by decide, by decide⟩
    (.cons hab (by decide) ?_ (.cons hc (by decide) ?_ (.cons hab (by decide) ?_ (.nil _)))) 3
    (by decide)
  · simp [Call.Fits]
  · simp [Call.Fits, Call.denote]
  · simp [Call.Fits, Call.denote]

end ZligcString
