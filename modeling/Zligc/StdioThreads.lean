import Mathlib.Logic.Function.Iterate
import Zligc.StdioCalls
import Zligc.Threads

/-!
# Threads that look handles up

Any number of threads use stream handles at once. A lookup is an atomic exchange and, where it
failed, the three stores of initStreams, and the threads may be interleaved before each of these
steps. One lookup in the life of the process finds the flag unset, and only that one can lead to a
record that nobody has stored yet.
-/
namespace Stdio

open Effect Zig Zligc OsFile Function Threads

/-- The records that initStreams stores, in its order. -/
def streams : List Stream := [.stdin_file, .stdout_file, .stderr_file]

/-- Where a thread is: outside the library, about to exchange the flag, or past the exchange with
some records still to store. -/
inductive Place where
  | idle
  | entered (fd : Stream)
  | running (fd : Stream) (rest : List Stream)
  deriving DecidableEq, Repr

inductive Atom where
  | call (fd : Stream)
  | exchange (succeeded : Bool)
  | store (fd : Stream)
  | use (fd : Stream) (defined : Bool)
  | done
  deriving DecidableEq, Repr

/-- The atomic steps of readOpaqueHandle, and the uses of the record until the call returns. -/
inductive Acts : Place → World → Atom → Place → World → Prop where
  | call (fd : Stream) {w w' : World} : (note .lookup).run w = .ok () w' →
      Acts .idle w (.call fd) (.entered fd) w'
  | succeeded {fd : Stream} {w w' : World} : (cmpxchgStrong 0 1).run w = .ok none w' →
      Acts (.entered fd) w (.exchange true) (.running fd []) w'
  | failed {fd : Stream} {old : UInt8} {w w₁ w' : World} :
      (cmpxchgStrong 0 1).run w = .ok (some old) w₁ → (note .initStreams).run w₁ = .ok () w' →
      Acts (.entered fd) w (.exchange false) (.running fd streams) w'
  | store {fd g : Stream} {rest : List Stream} {w w' : World} :
      (File.assign g (standard g)).run w = .ok () w' →
      Acts (.running fd (g :: rest)) w (.store g) (.running fd rest) w'
  | use {fd : Stream} {h : Int32} {w w' : World} : (File.handle fd).run w = .ok h w' →
      Acts (.running fd []) w (.use fd (w.records fd).isSome) (.running fd []) w'
  | done {fd : Stream} {w : World} : Acts (.running fd []) w .done .idle w

/-- How an exchange ended. -/
def Atom.exchanged : Atom → Option Bool
  | .exchange succeeded => some succeeded
  | _ => none

/-- The record that was stored. -/
def Atom.stored : Atom → Option Stream
  | .store fd => some fd
  | _ => none

variable {τ : Type}

def exchanges (trace : List (τ × Atom)) : List Bool := trace.filterMap (·.2.exchanged)

def stores (trace : List (τ × Atom)) : List Stream := trace.filterMap (·.2.stored)

/-- The thread is in the call whose exchange succeeded. -/
def Exchanging (trace : List (τ × Atom)) (t : τ) : Prop :=
  ∃ before later, trace = before ++ (t, .exchange true) :: later ∧
    ∀ e ∈ later, e.1 = t → ∃ fd defined, e.2 = .use fd defined

section Alone

variable [DecidableEq τ] {place : τ → Place} {t : τ} {fd : Stream}

/-- The stores of initStreams one after the other. -/
theorem stores_alone (w : World) :
    Reaches Acts ⟨update place t (.running fd streams), w⟩
      [(t, .store .stdin_file), (t, .store .stdout_file), (t, .store .stderr_file)]
      ⟨update place t (.running fd []), { w with records := initialised w.records }⟩ := by
  have hrec : update (update (update w.records .stdin_file (some 0)) .stdout_file (some 1))
      .stderr_file (some 2) = initialised w.records := by
    funext g
    cases g <;> simp [initialised, standard, update]
  rw [← hrec]
  exact ((Reaches.step (.store rfl)).trans (Reaches.step (.store rfl))).trans
    (Reaches.step (.store rfl))

/-- A thread that is not interrupted looks a handle up as readOpaqueHandle does. -/
theorem lookup_alone (h : place t = .idle) (fd : Stream) (w : World) :
    ∃ trace, Reaches Acts ⟨place, w⟩ trace
        ⟨update place t (.running fd []), after ((readOpaqueHandle (some fd)).run w)⟩ ∧
      ∀ e ∈ trace, e.1 = t := by
  have hidle : update place t .idle = place := update_eq_self_iff.mpr h.symm
  have hcall : Reaches Acts ⟨place, w⟩ [(t, .call fd)]
      ⟨update place t (.entered fd), { w with events := w.events ++ [.lookup] }⟩ := by
    have hstep : Reaches Acts ⟨update place t .idle, w⟩ [(t, .call fd)]
        ⟨update place t (.entered fd), { w with events := w.events ++ [.lookup] }⟩ :=
      .step (.call fd rfl)
    rwa [hidle] at hstep
  rw [lookup_some, after_ok, looked]
  split
  · rename_i hunset
    have hexchange : (cmpxchgStrong 0 1).run { w with events := w.events ++ [.lookup] } =
        .ok none { w with resolved := 1, events := w.events ++ [.lookup] } := by
      simp [cmpxchgStrong, hunset]
    refine ⟨_, hcall.trans (Reaches.step (.succeeded hexchange)), ?_⟩
    simp
  · rename_i hset
    have hexchange : (cmpxchgStrong 0 1).run { w with events := w.events ++ [.lookup] } =
        .ok (some w.resolved) { w with events := w.events ++ [.lookup] } := by
      simp [cmpxchgStrong, hset]
    have hnote : (note .initStreams).run { w with events := w.events ++ [.lookup] } =
        .ok () { w with events := w.events ++ [.lookup, .initStreams] } := by
      simp [note]
    refine ⟨_, (hcall.trans (Reaches.step (.failed hexchange hnote))).trans (stores_alone _), ?_⟩
    simp

end Alone

section Counted

theorem lookups_run (fd : Stream) (n : Nat) (w : World) :
    (repeated (readOpaqueHandle (some fd)) n).run w = .ok (List.replicate n fd) (looked^[n] w) := by
  induction n generalizing w with
  | zero => rfl
  | succ n ih => exact repeated_succ (lookup_some fd w) (ih (looked w))

theorem initialised_again (records : Stream → Option Int32) :
    initialised (initialised records) = initialised records := by
  funext g
  cases h : standard g <;> simp [initialised, h]

theorem looked_unset {w : World} (h : w.resolved = 0) :
    (looked w).resolved = 1 ∧ (looked w).records = w.records := by
  rw [looked, if_pos h]
  exact ⟨rfl, rfl⟩

theorem looked_set {w : World} (h : w.resolved = 1) :
    (looked w).resolved = 1 ∧ (looked w).records = initialised w.records := by
  rw [looked, if_neg (by simp [h])]
  exact ⟨h, rfl⟩

/-- Every lookup after the first one has left the records initialised. -/
theorem lookups_set {w : World} (n : Nat) (h : w.resolved = 1) :
    (looked^[n] w).resolved = 1 ∧
      (looked^[n] w).records = if n = 0 then w.records else initialised w.records := by
  induction n generalizing w with
  | zero => exact ⟨h, rfl⟩
  | succ n ih =>
    obtain ⟨hres, hrec⟩ := looked_set h
    obtain ⟨hres', hrec'⟩ := ih hres
    rw [iterate_succ_apply, if_neg n.succ_ne_zero, hrec', hrec, initialised_again, ite_self]
    exact ⟨hres', rfl⟩

theorem lookups_state {w : World} (n : Nat) (h : w.resolved = 0) :
    (looked^[n] w).resolved = (if n = 0 then 0 else 1) ∧
      (looked^[n] w).records = if n < 2 then w.records else initialised w.records := by
  cases n with
  | zero => exact ⟨h, rfl⟩
  | succ n =>
    obtain ⟨hres, hrec⟩ := looked_unset h
    obtain ⟨hres', hrec'⟩ := lookups_set n hres
    rw [iterate_succ_apply, hres', hrec', hrec]
    cases n with
    | zero => exact ⟨rfl, rfl⟩
    | succ n =>
      rw [if_neg n.succ_ne_zero, if_neg (by omega)]
      exact ⟨rfl, rfl⟩

end Counted

section Invariants

variable {trace : List (τ × Atom)} {t : τ}

@[simp] theorem exchanges_concat (trace : List (τ × Atom)) (e : τ × Atom) :
    exchanges (trace ++ [e]) = exchanges trace ++ e.2.exchanged.toList := by
  rw [exchanges, List.filterMap_append]
  cases h : e.2.exchanged <;> simp [exchanges, h]

@[simp] theorem stores_concat (trace : List (τ × Atom)) (e : τ × Atom) :
    stores (trace ++ [e]) = stores trace ++ e.2.stored.toList := by
  rw [stores, List.filterMap_append]
  cases h : e.2.stored <;> simp [stores, h]

theorem Exchanging.concat (h : Exchanging trace t) {e : τ × Atom}
    (he : e.1 = t → ∃ fd defined, e.2 = .use fd defined) : Exchanging (trace ++ [e]) t := by
  obtain ⟨before, later, rfl, hlater⟩ := h
  refine ⟨before, later ++ [e], by simp, fun e' he' => ?_⟩
  rcases List.mem_append.mp he' with hmem | hmem
  · exact hlater e' hmem
  · rw [List.mem_singleton.mp hmem]
    exact he

/-- What the place of a thread says about the past: its exchange failed and it has stored what it
need not store any more, or its exchange succeeded. -/
def Behind (t : τ) (trace : List (τ × Atom)) : Place → Prop
  | .running _ rest =>
    (false ∈ exchanges trace ∧ ∀ g ∈ streams, g ∉ rest → g ∈ stores trace) ∨
      (rest = [] ∧ Exchanging trace t)
  | _ => True

theorem Behind.concat {l : Place} (h : Behind t trace l) {e : τ × Atom}
    (he : e.1 = t → ∃ fd defined, e.2 = .use fd defined) : Behind t (trace ++ [e]) l := by
  cases l with
  | idle | entered => trivial
  | running fd rest =>
    refine h.imp ?_ ?_
    · rintro ⟨hfalse, hstored⟩
      refine ⟨?_, fun g hg hrest => ?_⟩
      · rw [exchanges_concat]
        exact List.mem_append_left _ hfalse
      · rw [stores_concat]
        exact List.mem_append_left _ (hstored g hg hrest)
    · rintro ⟨hrest, hex⟩
      exact ⟨hrest, hex.concat he⟩

/-- A store is one of a call whose exchange failed. -/
theorem Behind.store {fd g : Stream} {rest : List Stream}
    (h : Behind t trace (.running fd (g :: rest))) :
    false ∈ exchanges trace ∧ ∀ g' ∈ streams, g' ∉ g :: rest → g' ∈ stores trace :=
  h.resolve_right fun hs => List.cons_ne_nil _ _ hs.1

/-- The flag says whether there was an exchange, of which only the first succeeded, and the records
are the ones that were stored. -/
structure Kept (trace : List (τ × Atom)) (w : World) : Prop where
  resolved : w.resolved = if exchanges trace = [] then 0 else 1
  records : ∀ fd, w.records fd = if fd ∈ stores trace then standard fd else none
  first : exchanges trace = [] ∨ ∃ n, exchanges trace = true :: List.replicate n false

theorem Kept.same {w w' : World} (h : Kept trace w) (hres : w'.resolved = w.resolved)
    (hrec : w'.records = w.records) {e : τ × Atom} (he : e.2.exchanged = none)
    (hs : e.2.stored = none) : Kept (trace ++ [e]) w' := by
  constructor
  · rw [exchanges_concat, he, hres]
    simpa using h.resolved
  · rw [stores_concat, hs, hrec]
    simpa using h.records
  · rw [exchanges_concat, he]
    simpa using h.first

theorem Kept.unset {w : World} (h : Kept trace w) (hres : w.resolved = 0) :
    exchanges trace = [] := by
  by_contra hne
  have hone := h.resolved
  rw [if_neg hne, hres] at hone
  cases hone

theorem Kept.set {w : World} (h : Kept trace w) (hres : w.resolved ≠ 0) :
    ∃ n, exchanges trace = true :: List.replicate n false := by
  refine h.first.resolve_left fun hnone => hres ?_
  rw [h.resolved, if_pos hnone]

theorem cmpxchg_succeeds {w w' : World} (h : (cmpxchgStrong 0 1).run w = .ok none w') :
    w.resolved = 0 ∧ w' = { w with resolved := 1 } := by
  rw [cmpxchgStrong, step_run] at h
  split at h
  · rename_i hunset
    exact ⟨hunset, (EStateM.Result.ok.inj h).2.symm⟩
  · cases (EStateM.Result.ok.inj h).1

theorem cmpxchg_fails {old : UInt8} {w w' : World}
    (h : (cmpxchgStrong 0 1).run w = .ok (some old) w') : w.resolved ≠ 0 ∧ w' = w := by
  rw [cmpxchgStrong, step_run] at h
  split at h
  · cases (EStateM.Result.ok.inj h).1
  · rename_i hset
    exact ⟨hset, (EStateM.Result.ok.inj h).2.symm⟩

theorem mem_streams {fd : Stream} (h : (standard fd).isSome) : fd ∈ streams := by
  cases fd <;> simp_all [standard, streams]

/-- What a use of a standard stream sees: a record that was stored before, unless the call is the
one whose exchange succeeded. -/
def Sees (trace : List (τ × Atom)) (e : τ × Atom) : Prop :=
  ∀ fd defined, e.2 = .use fd defined → (standard fd).isSome →
    (defined = true ↔ fd ∈ stores trace) ∧ (defined = false → Exchanging trace e.1)

theorem Kept.sees {w : World} (h : Kept trace w) {fd : Stream}
    (hb : Behind t trace (.running fd [])) : Sees trace (t, .use fd (w.records fd).isSome) := by
  intro fd' defined he hfd
  obtain ⟨rfl, rfl⟩ := Atom.use.inj he
  have hiff : (w.records fd).isSome = true ↔ fd ∈ stores trace := by
    rw [h.records]
    split
    · rename_i hmem
      exact ⟨fun _ => hmem, fun _ => hfd⟩
    · rename_i hmem
      exact ⟨fun hs => absurd hs (by simp), fun hs => absurd hs hmem⟩
  refine ⟨hiff, fun hnone => ?_⟩
  rcases hb with ⟨-, hstored⟩ | ⟨-, hex⟩
  · have hmem := hstored fd (mem_streams hfd) List.not_mem_nil
    rw [hiff.mpr hmem] at hnone
    cases hnone
  · exact hex

variable [DecidableEq τ] {c : Config τ Place World} {w : World}

/-- A process of which every thread is outside the library. -/
def atRest (w : World) : Config τ Place World := ⟨fun _ => .idle, w⟩

theorem behind_run (h : Reaches Acts (atRest w) trace c) (t : τ) :
    Behind t trace (c.place t) := by
  refine h.local (fun _ => trivial) (fun t _ e _ he hl => hl.concat fun ht => absurd ht he) ?_ t
  intro trace c t a l s _ hl hacts
  generalize c.place t = l₀ at hl hacts
  cases hacts with
  | call | done => trivial
  | succeeded => exact Or.inr ⟨rfl, trace, [], rfl, fun _ he => absurd he List.not_mem_nil⟩
  | failed =>
    refine Or.inl ⟨?_, fun g hg hrest => absurd hg hrest⟩
    simp [Atom.exchanged]
  | @store fd g rest =>
    obtain ⟨hfalse, hstored⟩ := hl.store
    refine Or.inl ⟨?_, fun g' hg' hrest => ?_⟩
    · simpa [Atom.exchanged] using hfalse
    · rw [stores_concat, List.mem_append]
      by_cases he : g' = g
      · exact Or.inr (by simp [Atom.stored, he])
      · exact Or.inl (hstored g' hg' (by simp [he, hrest]))
  | use => exact hl.concat fun _ => ⟨_, _, rfl⟩

theorem kept_run (hw : Started w) (h : Reaches Acts (atRest w) trace c) :
    Kept trace c.shared := by
  apply h.invariant (I := fun trace c => Kept trace c.shared)
  · exact ⟨hw.resolved, fun fd => (hw.records fd).trans (if_neg List.not_mem_nil).symm, Or.inl rfl⟩
  · intro trace c t a l s _ hk hacts
    change Kept (trace ++ [(t, a)]) s
    generalize c.place t = l₀ at hacts
    cases hacts with
    | call fd hnote =>
      obtain ⟨-, rfl⟩ := EStateM.Result.ok.inj hnote
      refine hk.same ?_ ?_ ?_ ?_ <;> rfl
    | done => refine hk.same ?_ ?_ ?_ ?_ <;> rfl
    | use huse =>
      obtain ⟨-, rfl⟩ := EStateM.Result.ok.inj huse
      refine hk.same ?_ ?_ ?_ ?_ <;> rfl
    | succeeded hexchange =>
      obtain ⟨hunset, rfl⟩ := cmpxchg_succeeds hexchange
      have hnone := hk.unset hunset
      constructor
      · simp [Atom.exchanged]
      · simpa [Atom.stored] using hk.records
      · exact Or.inr ⟨0, by simp [hnone, Atom.exchanged]⟩
    | failed hexchange hnote =>
      obtain ⟨hset, rfl⟩ := cmpxchg_fails hexchange
      obtain ⟨-, rfl⟩ := EStateM.Result.ok.inj hnote
      obtain ⟨n, hn⟩ := hk.set hset
      constructor
      · have hres := hk.resolved
        rw [hn, if_neg (by simp)] at hres
        simpa [Atom.exchanged] using hres
      · simpa [Atom.stored] using hk.records
      · exact Or.inr ⟨n + 1, by simp [hn, Atom.exchanged, List.replicate_succ']⟩
    | @store fd g rest w w' hstore =>
      obtain ⟨-, rfl⟩ := EStateM.Result.ok.inj hstore
      constructor
      · simpa [Atom.exchanged] using hk.resolved
      · intro fd'
        have hrec := hk.records fd'
        by_cases he : fd' = g
        · subst he
          simp [Atom.stored]
        · simpa [Atom.stored, he] using hrec
      · simpa [Atom.exchanged] using hk.first

theorem sees_run (hw : Started w) (h : Reaches Acts (atRest w) trace c) : Always Sees trace := by
  apply h.invariant (I := fun trace _ => Always Sees trace) (always_nil _)
  intro trace c t a l s hrun hall hacts
  refine hall.concat ?_
  have hk := kept_run hw hrun
  have hb := behind_run hrun t
  generalize c.place t = l₀ at hb hacts
  cases hacts with
  | use => exact hk.sees hb
  | _ => exact fun _ _ he => nomatch he

/-- In every interleaving from a process start at most one exchange succeeds, a use of a standard
stream finds its record defined exactly if it was stored before, and only the call whose exchange
succeeded can find it undefined. -/
theorem lookups_race (hw : Started w) (h : Reaches Acts (atRest w) trace c) :
    (exchanges trace).count true ≤ 1 ∧ Always Sees trace := by
  refine ⟨?_, sees_run hw h⟩
  rcases (kept_run hw h).first with hnil | ⟨n, hn⟩
  · simp [hnil]
  · simp [hn, List.count_replicate]

/-- Two threads that print at once: the one whose exchange succeeds uses an undefined record. -/
def race : List (Bool × Atom) :=
  [(false, .call .stdout_file), (true, .call .stdout_file), (false, .exchange true),
    (true, .exchange false), (true, .store .stdin_file), (false, .use .stdout_file false),
    (true, .store .stdout_file), (true, .store .stderr_file), (true, .use .stdout_file true),
    (false, .done), (true, .done)]

theorem race_reached :
    ∃ c, Reaches Acts (atRest (startWorld firstMem (Kernel.started .lowest []))) race c ∧
      ∀ t, c.place t = .idle := by
  have h₀ : Reaches Acts (atRest (startWorld firstMem (Kernel.started .lowest [])))
      ([] : List (Bool × Atom)) _ := .start
  have h₁ := (h₀.turn false (.call .stdout_file rfl)).turn true (.call .stdout_file rfl)
  have h₂ := (h₁.turn false (.succeeded rfl)).turn true (.failed rfl rfl)
  have h₃ := (h₂.turn true (.store rfl)).turn false (.use rfl)
  have h₄ := ((h₃.turn true (.store rfl)).turn true (.store rfl)).turn true (.use rfl)
  refine ⟨_, (h₄.turn false .done).turn true .done, fun t => ?_⟩
  cases t <;> rfl

theorem lookups_race_example : (exchanges race).count true ≤ 1 ∧ Always Sees race := by
  obtain ⟨c, h, -⟩ := race_reached
  exact lookups_race ⟨rfl, fun _ => rfl, rfl⟩ h

/-- Records are stored after a failed exchange only, and all of them once its thread is through. -/
structure Settling (trace : List (τ × Atom)) (c : Config τ Place World) : Prop where
  failed : ∀ g ∈ stores trace, false ∈ exchanges trace
  through : false ∈ exchanges trace → (∀ g ∈ streams, g ∈ stores trace) ∨
    ∃ t fd g rest, c.place t = .running fd (g :: rest)

/-- A turn of a thread that has no records to store. -/
theorem Settling.same {t : τ} {a : Atom} {l : Place} {s : World} (h : Settling trace c)
    (he : a.exchanged ≠ some false) (hs : a.stored = none)
    (hl : ∀ fd g rest, c.place t ≠ .running fd (g :: rest)) :
    Settling (trace ++ [(t, a)]) ⟨update c.place t l, s⟩ := by
  have hstores : stores (trace ++ [(t, a)]) = stores trace := by
    rw [stores_concat, hs]
    exact List.append_nil _
  constructor
  · intro g hg
    rw [hstores] at hg
    rw [exchanges_concat]
    exact List.mem_append_left _ (h.failed g hg)
  · intro hmem
    rw [hstores]
    rw [exchanges_concat, List.mem_append, Option.mem_toList] at hmem
    refine (h.through (hmem.resolve_right he)).imp_right ?_
    rintro ⟨t', fd, g, rest, ht'⟩
    have hne : t' ≠ t := by
      rintro rfl
      exact hl fd g rest ht'
    exact ⟨t', fd, g, rest, (update_of_ne hne _ _).trans ht'⟩

theorem settling_run (h : Reaches Acts (atRest w) trace c) : Settling trace c := by
  apply h.invariant (I := Settling)
  · exact ⟨fun g hg => absurd hg List.not_mem_nil, fun hf => absurd hf List.not_mem_nil⟩
  · intro trace c t a l s hrun hset hacts
    have hb := behind_run hrun t
    generalize hplace : c.place t = l₀ at hb hacts
    cases hacts with
    | call | succeeded | use | done =>
      refine hset.same (by simp [Atom.exchanged]) rfl fun _ _ _ he => ?_
      rw [hplace] at he
      cases he
    | failed =>
      refine ⟨fun _ _ => ?_, fun _ => Or.inr ⟨t, _, _, _, update_self ..⟩⟩
      simp [Atom.exchanged]
    | @store fd g rest w w' hstore =>
      obtain ⟨hfalse, hstored⟩ := hb.store
      refine ⟨fun _ _ => ?_, fun _ => ?_⟩
      · rw [exchanges_concat]
        exact List.mem_append_left _ hfalse
      · cases rest with
        | cons g' rest => exact Or.inr ⟨t, fd, g', rest, update_self ..⟩
        | nil =>
          refine Or.inl fun g' hg' => ?_
          rw [stores_concat, List.mem_append]
          by_cases he : g' = g
          · exact Or.inr (by simp [Atom.stored, he])
          · exact Or.inl (hstored g' hg' (by simp [he]))

/-- In every interleaving from a process start, when every thread is outside the library again, the
flag and the records are the ones after as many lookups one after the other. -/
theorem lookups_settle (hw : Started w) (h : Reaches Acts (atRest w) trace c)
    (hidle : ∀ t, c.place t = .idle) (fd : Stream) :
    c.shared.resolved =
        (after ((repeated (readOpaqueHandle (some fd)) (exchanges trace).length).run w)).resolved ∧
      c.shared.records =
        (after ((repeated (readOpaqueHandle (some fd)) (exchanges trace).length).run w)).records := by
  have hk := kept_run hw h
  have hset := settling_run h
  have hnone : false ∉ exchanges trace → ∀ g, c.shared.records g = none := by
    intro hf g
    rw [hk.records, if_neg fun hg => hf (hset.failed g hg)]
  have hall : false ∈ exchanges trace → ∀ g, c.shared.records g = standard g := by
    intro hf g
    rw [hk.records]
    split
    · rfl
    · rename_i hg
      have hstored := (hset.through hf).resolve_right (by simp [hidle])
      cases hs : standard g with
      | none => rfl
      | some n => exact absurd (hstored g (mem_streams (by simp [hs]))) hg
  obtain ⟨hres, hrec⟩ := lookups_state (exchanges trace).length hw.resolved
  rw [lookups_run, after_ok, hres, hrec, hk.resolved]
  rcases hk.first with hnil | ⟨n, hn⟩
  · refine ⟨by simp [hnil], funext fun g => ?_⟩
    rw [hnone (by simp [hnil]), if_pos (by simp [hnil]), hw.records]
  · refine ⟨by simp [hn], funext fun g => ?_⟩
    cases n with
    | zero =>
      rw [hnone (by simp [hn]), if_pos (by simp [hn]), hw.records]
    | succ n =>
      rw [hall (by simp [hn, List.replicate_succ]), if_neg (by simp [hn]), initialised]
      cases hs : standard g with
      | none => exact (hw.records g).symm
      | some n => rfl

theorem lookups_settle_example :
    ∃ c : Config Bool Place World,
      c.shared.resolved =
          (after ((repeated (readOpaqueHandle (some .stdout_file)) (exchanges race).length).run
            (startWorld firstMem (Kernel.started .lowest [])))).resolved ∧
        c.shared.records =
          (after ((repeated (readOpaqueHandle (some .stdout_file)) (exchanges race).length).run
            (startWorld firstMem (Kernel.started .lowest [])))).records := by
  obtain ⟨c, h, hidle⟩ := race_reached
  exact ⟨c, lookups_settle ⟨rfl, fun _ => rfl, rfl⟩ h hidle .stdout_file⟩

end Invariants

end Stdio
