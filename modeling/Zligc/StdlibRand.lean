import Zligc.Zig
import Zligc.Generator

/-!
# Random numbers in stdlib.zig

Every draw of the generator comes from the sequence of the last seed. But rand returns all 32 bits
of it as an int, and the sequence that a program starts with is that of seed 0.
-/
namespace StdlibHeader

def RAND_MAX : Nat := 0x7fffffff

end StdlibHeader

namespace Stdlib

open Effect Zig Generator StdlibHeader

variable {ρ : Type}

/-- std.rand.DefaultPrng: its init and seed, and random.scalar of a c_uint. -/
structure DefaultPrng (ρ : Type) where
  init : UInt64 → ρ
  seed : ρ → UInt64 → ρ
  scalar : ρ → UInt32 × ρ

/-- A generator that is seeded again is in the state of a new one. -/
def DefaultPrng.Reseeds (std : DefaultPrng ρ) : Prop := ∀ s seed, std.seed s seed = std.init seed

/-- The state of the generator when the program starts. -/
def prng (std : DefaultPrng ρ) : ρ := std.init 0

def rand (std : DefaultPrng ρ) : Run ρ Int32 := do
  return (← modifyGet std.scalar).toInt32

def srand (std : DefaultPrng ρ) (seed : UInt32) : Run ρ Unit :=
  modify fun prng => std.seed prng seed.toUInt64

/-- Calls of rand and srand, with the values that rand returned. -/
def calls (std : DefaultPrng ρ) : List (Request UInt32) → Run ρ (List Int32)
  | [] => pure []
  | .next :: cs => do
    let value ← rand std
    return value :: (← calls std cs)
  | .restart seed :: cs => do
    srand std seed
    calls std cs

/-- The draws of the generator, with c_uint seeds. -/
def source (std : DefaultPrng ρ) : Source ρ UInt32 UInt32 where
  init seed := std.init seed.toUInt64
  next := std.scalar

/-- What the call number `n` of rand returns after a call of srand. -/
def values (std : DefaultPrng ρ) (seed : UInt32) (n : Nat) : Int32 :=
  ((source std).value seed n).toInt32

/-- In a run of calls from the start of the program rand returned the values of the sequences of
the seeds, beginning with that of 1, and they are in its range. -/
structure RandLaw (std : DefaultPrng ρ) (cs : List (Request UInt32)) : Prop where
  sequence : ∃ s, (calls std cs).run (prng std) = .ok (expected (values std) 1 0 cs) s
  range : ∀ v ∈ expected (values std) 1 0 cs, 0 ≤ v.toInt ∧ v.toInt ≤ RAND_MAX

/-- No draw of the run exceeds RAND_MAX, and the draws before the first call of srand are those of
seed 1. -/
def Harmless (std : DefaultPrng ρ) (cs : List (Request UInt32)) : Prop :=
  (∀ d ∈ (source std).answers (prng std) cs, d.toNat ≤ RAND_MAX) ∧
    ∀ i < leading cs, (source std).value 0 i = (source std).value 1 i

section Calls

variable {std : DefaultPrng ρ}

theorem calls_run (h : std.Reseeds) (cs : List (Request UInt32)) (s : ρ) :
    ∃ t, (calls std cs).run s = .ok (((source std).answers s cs).map UInt32.toInt32) t := by
  induction cs generalizing s with
  | nil => exact ⟨s, rfl⟩
  | cons c cs ih =>
    cases c with
    | next =>
      obtain ⟨t, hrun⟩ := ih (std.scalar s).2
      have hrand : (rand std).run s = .ok (std.scalar s).1.toInt32 (std.scalar s).2 := rfl
      refine ⟨t, ?_⟩
      rw [calls, bind_ok hrand, bind_ok hrun]
      rfl
    | restart seed =>
      obtain ⟨t, hrun⟩ := ih (std.init seed.toUInt64)
      have hsrand : (srand std seed).run s = .ok () (std.init seed.toUInt64) :=
        congrArg (EStateM.Result.ok ()) (h s seed.toUInt64)
      refine ⟨t, ?_⟩
      rw [calls, bind_ok hsrand, hrun]
      rfl

theorem range_iff (d : UInt32) :
    (0 ≤ d.toInt32.toInt ∧ d.toInt32.toInt ≤ RAND_MAX) ↔ d.toNat ≤ RAND_MAX := by
  have hlt := d.toNat_lt
  rw [toInt_eq, UInt32.toUInt32_toInt32]
  show _ ∧ _ ≤ (0x7fffffff : Int) ↔ d.toNat ≤ 0x7fffffff
  split <;> omega

theorem answers_values (std : DefaultPrng ρ) (seed : UInt32) (cs : List (Request UInt32)) :
    ((source std).answers ((source std).init seed) cs).map UInt32.toInt32 =
      expected (values std) seed 0 cs := by
  rw [answers_init, expected_map]
  rfl

/-- From the start of the program the values are those of the seed 0. -/
theorem calls_start (h : std.Reseeds) (cs : List (Request UInt32)) :
    ∃ s, (calls std cs).run (prng std) = .ok (expected (values std) 0 0 cs) s := by
  rw [← answers_values]
  exact calls_run h cs (prng std)

/-- What rand returns after a call of srand is the sequence of the seed, whatever was called
before. -/
theorem calls_seeded (h : std.Reseeds) (before : List (Request UInt32)) (seed : UInt32)
    (cs : List (Request UInt32)) : ∃ vs s t, (calls std before).run (prng std) = .ok vs s ∧
      (calls std (before ++ .restart seed :: cs)).run (prng std) =
        .ok (vs ++ expected (values std) seed 0 cs) t := by
  obtain ⟨s, hbefore⟩ := calls_run h before (prng std)
  obtain ⟨t, hall⟩ := calls_run h (before ++ .restart seed :: cs) (prng std)
  rw [answers_append, List.map_append, answers_values] at hall
  exact ⟨_, s, t, hbefore, hall⟩

theorem toInt32_inj {a b : UInt32} : a.toInt32 = b.toInt32 ↔ a = b := by
  constructor
  · intro h
    have hback := congrArg Int32.toUInt32 h
    rwa [UInt32.toUInt32_toInt32, UInt32.toUInt32_toInt32] at hback
  · rintro rfl
    rfl

theorem start_iff (std : DefaultPrng ρ) (cs : List (Request UInt32)) :
    expected (values std) 0 0 cs = expected (values std) 1 0 cs ↔
      ∀ i < leading cs, (source std).value 0 i = (source std).value 1 i := by
  simp only [expected_eq_iff, values, toInt32_inj, Nat.zero_add]

theorem sequence_iff (h : std.Reseeds) (cs : List (Request UInt32)) :
    (∃ s, (calls std cs).run (prng std) = .ok (expected (values std) 1 0 cs) s) ↔
      expected (values std) 0 0 cs = expected (values std) 1 0 cs := by
  obtain ⟨s, hrun⟩ := calls_start h cs
  rw [hrun]
  constructor
  · rintro ⟨t, hresult⟩
    exact (EStateM.Result.ok.inj hresult).1
  · exact fun heq => ⟨s, by rw [heq]⟩

theorem values_in_range_iff (std : DefaultPrng ρ) (cs : List (Request UInt32)) :
    (∀ v ∈ expected (values std) 0 0 cs, 0 ≤ v.toInt ∧ v.toInt ≤ RAND_MAX) ↔
      ∀ d ∈ (source std).answers (prng std) cs, d.toNat ≤ RAND_MAX := by
  rw [← answers_values, List.forall_mem_map]
  simp only [range_iff]
  rfl

/-- The values of a run are in the range if its draws are, and they begin like those of seed 1 if
the draws do. -/
theorem law_iff (h : std.Reseeds) (cs : List (Request UInt32)) :
    RandLaw std cs ↔ Harmless std cs := by
  rw [Harmless, ← start_iff, ← values_in_range_iff]
  constructor
  · rintro ⟨hsequence, hrange⟩
    have heq := (sequence_iff h cs).mp hsequence
    rw [← heq] at hrange
    exact ⟨hrange, heq⟩
  · rintro ⟨hrange, heq⟩
    rw [heq] at hrange
    exact ⟨(sequence_iff h cs).mpr heq, hrange⟩

theorem leading_replicate (n : Nat) :
    leading (List.replicate n (.next : Request UInt32)) = n := by
  induction n with
  | zero => rfl
  | succ n ih => exact congrArg (· + 1) ih

/-- As two seeds have different sequences, some run without srand is not that of seed 1. -/
theorem unseeded_differs (h : std.Reseeds)
    (hdistinct : ∃ i, (source std).value 0 i ≠ (source std).value 1 i) :
    ∃ n, ¬ RandLaw std (List.replicate n .next) := by
  obtain ⟨i, hne⟩ := hdistinct
  refine ⟨i + 1, fun hlaw => ?_⟩
  have hsame := ((law_iff h _).mp hlaw).2
  rw [leading_replicate] at hsame
  exact hne (hsame i (Nat.lt_succ_self i))

/-- As a draw may have any value, some run that begins with srand leaves the range. -/
theorem seeded_exceeds (h : std.Reseeds) {seed : UInt32} {n : Nat}
    (hlarge : RAND_MAX < ((source std).value seed n).toNat) :
    ¬ RandLaw std (.restart seed :: List.replicate (n + 1) .next) := by
  intro hlaw
  have hdraws := ((law_iff h _).mp hlaw).1
  rw [Source.answers, answers_init, expected_replicate] at hdraws
  have hmem : (source std).value seed n ∈
      (List.range (n + 1)).map fun i => (source std).value seed (0 + i) :=
    List.mem_map.mpr ⟨n, List.mem_range.mpr (Nat.lt_succ_self n), by rw [Nat.zero_add]⟩
  exact absurd (hdraws _ hmem) (Nat.not_le.mpr hlarge)

end Calls

/-- xoroshiro128+ seeded by splitmix64. A c_uint is the low half of an output. -/
def xoroshiro128 : DefaultPrng (UInt64 × UInt64) where
  init := seeded
  seed _ := seeded
  scalar s :=
    let s₁ := s.2 ^^^ s.1
    ((s.1 + s.2).toUInt32, (rotl s.1 55 ^^^ s₁ ^^^ (s₁ <<< 14), rotl s₁ 36))
where
  rotl (x r : UInt64) : UInt64 := (x <<< r) ||| (x >>> (64 - r))
  mix (x : UInt64) : UInt64 :=
    let z := (x ^^^ (x >>> 30)) * 0xbf58476d1ce4e5b9
    let z := (z ^^^ (z >>> 27)) * 0x94d049bb133111eb
    z ^^^ (z >>> 31)
  seeded (seed : UInt64) : UInt64 × UInt64 :=
    (mix (seed + 0x9e3779b97f4a7c15), mix (seed + 0x9e3779b97f4a7c15 + 0x9e3779b97f4a7c15))

theorem xoroshiro128_reseeds : xoroshiro128.Reseeds := fun _ _ => rfl

/-- The values after a call of srand depend on its seed alone. A run obeys the law exactly when its
draws are in the range and those before the first call of srand are the ones of seed 1. -/
theorem rand_law_iff {std : DefaultPrng ρ} (h : std.Reseeds) :
    (∀ before seed cs, ∃ vs s t, (calls std before).run (prng std) = .ok vs s ∧
      (calls std (before ++ .restart seed :: cs)).run (prng std) =
        .ok (vs ++ expected (values std) seed 0 cs) t) ∧
    ∀ cs, RandLaw std cs ↔ Harmless std cs :=
  ⟨calls_seeded h, law_iff h⟩

theorem rand_law_iff_example :
    (∃ vs s t, (calls xoroshiro128 [.next]).run (prng xoroshiro128) = .ok vs s ∧
      (calls xoroshiro128 [.next, .restart 3, .next]).run (prng xoroshiro128) =
        .ok (vs ++ expected (values xoroshiro128) 3 0 [.next]) t) ∧
    (RandLaw xoroshiro128 [.restart 3, .next] ↔ Harmless xoroshiro128 [.restart 3, .next]) := by
  obtain ⟨hseeded, hharmless⟩ := rand_law_iff xoroshiro128_reseeds
  exact ⟨hseeded [.next] 3 [.next], hharmless _⟩

/-- After srand(2) the second call of rand returns a negative value, and the first call of a program
is not the first call after srand(1). -/
theorem rand_negative :
    value? ((calls xoroshiro128 [.restart 2, .next, .next]).run (prng xoroshiro128)) =
      some [680752400, -1286782968] ∧
    value? ((calls xoroshiro128 [.next]).run (prng xoroshiro128)) = some [483865507] ∧
    value? ((calls xoroshiro128 [.restart 1, .next]).run (prng xoroshiro128)) =
      some [-292468440] ∧
    ¬ RandLaw xoroshiro128 [.restart 2, .next, .next] ∧ ¬ RandLaw xoroshiro128 [.next] := by
  refine ⟨by decide, by decide, by decide, fun h => ?_, fun h => ?_⟩
  · have hharmless := (law_iff xoroshiro128_reseeds _).mp h
    exact absurd (hharmless.1 3008184328 (by decide)) (by decide)
  · have hharmless := (law_iff xoroshiro128_reseeds _).mp h
    exact absurd (hharmless.2 0 (by decide)) (by decide)

end Stdlib
