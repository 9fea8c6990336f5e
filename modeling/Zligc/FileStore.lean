import Mathlib.Logic.Function.Basic

/-!
# Stores of named files

Names lead to files and streams stand somewhere in files. Programs act on a store through names and
streams only: a file that has lost its name is never found again, and a file keeps its content that
is neither opened by its name nor written through a stream.
-/
namespace FileStore

open Function

variable {ν σ α : Type}

/-- An open stream: its file, its place in it and the accesses allowed. -/
structure Handle where
  file : Nat
  offset : Nat
  readable : Bool
  writable : Bool
  deriving DecidableEq, Repr

/-- Files from `unused` on have neither names nor streams. -/
structure Store (ν σ α : Type) where
  names : ν → Option Nat
  contents : Nat → List α
  streams : σ → Option Handle
  unused : Nat

inductive Action (ν σ α : Type) where
  | opens (s : σ) (name : ν)
  | closes (s : σ)
  | removes (name : ν)
  | renames (old new : ν)
  | seeks (s : σ) (offset : Nat)
  | reads (s : σ) (got : List α)
  | writes (s : σ) (put : List α)
  deriving DecidableEq, Repr

/-- The file that opening a name leads to: the one it names, or a new one. -/
def Store.target (st : Store ν σ α) (name : ν) : Nat := (st.names name).getD st.unused

/-- The action uses the name. -/
def Action.Mentions (name : ν) : Action ν σ α → Prop
  | .opens _ n | .removes n => n = name
  | .renames old new => old = name ∨ new = name
  | _ => False

/-- Every file has at most one name. -/
structure WellFormed (st : Store ν σ α) : Prop where
  named : ∀ n i, st.names n = some i → i < st.unused
  held : ∀ s h, st.streams s = some h → h.file < st.unused
  single : ∀ n n' i, st.names n = some i → st.names n' = some i → n = n'

/-- No stream may write the file. -/
def Unwritten (st : Store ν σ α) (i : Nat) : Prop :=
  ∀ s h, st.streams s = some h → h.file = i → h.writable = false

/-- The file has no name any more. -/
structure Lost (st : Store ν σ α) (i : Nat) : Prop where
  used : i < st.unused
  unnamed : ∀ n, st.names n ≠ some i

/-- The file that opening a name leads to has no other name. -/
theorem WellFormed.target {st : Store ν σ α} {name : ν} (h : WellFormed st) {n : ν} (hn : st.names n = some (st.target name)) :
    n = name := by
  unfold Store.target at hn
  cases he : st.names name with
  | none =>
    rw [he, Option.getD_none] at hn
    exact absurd (h.named n _ hn) (Nat.lt_irrefl _)
  | some i =>
    rw [he, Option.getD_some] at hn
    exact h.single n name i hn he

/-- Opening another name leads elsewhere. -/
theorem WellFormed.target_ne {st : Store ν σ α} {name : ν} {i : Nat} (h : WellFormed st)
    (hname : st.names name = some i) {n : ν} (hne : n ≠ name) : st.target n ≠ i := by
  rintro rfl
  exact hne (h.target hname).symm

theorem Lost.target_ne {st : Store ν σ α} {i : Nat} (h : Lost st i) (n : ν) : st.target n ≠ i := by
  unfold Store.target
  cases he : st.names n with
  | none => exact Nat.ne_of_gt h.used
  | some j =>
    rintro rfl
    exact h.unnamed n he

/-- What an updated table holds. -/
theorem update_eq_some {β γ : Type} [DecidableEq β] {f : β → Option γ} {a b : β} {o : Option γ}
    {c : γ} : update f a o b = some c ↔ b = a ∧ o = some c ∨ b ≠ a ∧ f b = some c := by
  by_cases h : b = a
  · subst h
    simp
  · simp [h]

variable [DecidableEq ν] [DecidableEq σ]

/-- What an action does. Opening empties the file for writing; `splice content offset put` is the
content after a write. -/
inductive Acts (splice : List α → Nat → List α → List α) :
    Store ν σ α → Action ν σ α → Store ν σ α → Prop where
  | opens (st : Store ν σ α) (s : σ) (name : ν) : Acts splice st (.opens s name)
      { names := update st.names name (some (st.target name))
        contents := update st.contents (st.target name) []
        streams := update st.streams s (some ⟨st.target name, 0, false, true⟩)
        unused := max st.unused (st.target name + 1) }
  | closes (st : Store ν σ α) (s : σ) : Acts splice st (.closes s)
      { st with streams := update st.streams s none }
  | removes {st : Store ν σ α} {name : ν} {i : Nat} : st.names name = some i →
      Acts splice st (.removes name) { st with names := update st.names name none }
  | renames {st : Store ν σ α} {old new : ν} {i : Nat} : st.names old = some i →
      Acts splice st (.renames old new)
        { st with names := if old = new then st.names
            else update (update st.names new (some i)) old none }
  | seeks {st : Store ν σ α} {s : σ} {h : Handle} (offset : Nat) : st.streams s = some h →
      Acts splice st (.seeks s offset)
        { st with streams := update st.streams s (some { h with offset := offset }) }
  | reads {st : Store ν σ α} {s : σ} {h : Handle} {got : List α} : st.streams s = some h →
      h.readable = true → got <+: (st.contents h.file).drop h.offset →
      Acts splice st (.reads s got)
        { st with streams := update st.streams s (some { h with offset := h.offset + got.length }) }
  | writes {st : Store ν σ α} {s : σ} {h : Handle} (put : List α) : st.streams s = some h →
      h.writable = true → Acts splice st (.writes s put)
        { st with
          contents := update st.contents h.file (splice (st.contents h.file) h.offset put)
          streams := update st.streams s (some { h with offset := h.offset + put.length }) }

/-- One action after the other. -/
inductive Runs (splice : List α → Nat → List α → List α) :
    Store ν σ α → List (Action ν σ α) → Store ν σ α → Prop where
  | nil (st : Store ν σ α) : Runs splice st [] st
  | cons {st st' st'' : Store ν σ α} {a : Action ν σ α} {actions : List (Action ν σ α)} :
      Acts splice st a st' → Runs splice st' actions st'' → Runs splice st (a :: actions) st''

variable {splice : List α → Nat → List α → List α} {st st' st'' : Store ν σ α}
  {a : Action ν σ α} {actions actions' : List (Action ν σ α)} {name : ν} {i : Nat}

theorem Runs.append (h : Runs splice st actions st') (h' : Runs splice st' actions' st'') :
    Runs splice st (actions ++ actions') st'' := by
  induction h with
  | nil => exact h'
  | cons ha _ ih => exact .cons ha (ih h')

theorem Acts.run (h : Acts splice st a st') : Runs splice st [a] st' := .cons h (.nil st')

/-- What each of the actions keeps, all of them keep. -/
theorem Runs.keeps {I : Store ν σ α → Prop} {P : Action ν σ α → Prop}
    (hkeep : ∀ st a st', I st → P a → Acts splice st a st' → I st')
    (h : Runs splice st actions st') (hst : I st) (hall : ∀ a ∈ actions, P a) : I st' := by
  induction h with
  | nil => exact hst
  | cons ha _ ih =>
    rw [List.forall_mem_cons] at hall
    exact ih (hkeep _ _ _ hst hall.1 ha) hall.2

omit [DecidableEq ν] in
/-- The streams of a well-formed store after one of them was changed. -/
theorem WellFormed.streams (h : WellFormed st) {s : σ} {o : Option Handle}
    (ho : ∀ h', o = some h' → h'.file < st.unused) (contents : Nat → List α) :
    WellFormed { st with contents := contents, streams := update st.streams s o } := by
  refine ⟨h.named, fun s' h' hs' => ?_, h.single⟩
  rcases update_eq_some.mp hs' with ⟨-, hs'⟩ | ⟨-, hs'⟩
  · exact ho h' hs'
  · exact h.held s' h' hs'

omit [DecidableEq ν] in
theorem WellFormed.moved (h : WellFormed st) {s : σ} {h' : Handle} (hs : st.streams s = some h')
    (offset : Nat) (contents : Nat → List α) :
    WellFormed { st with
      contents := contents
      streams := update st.streams s (some { h' with offset := offset }) } := by
  refine h.streams (fun h₁ he => ?_) contents
  obtain rfl := Option.some.inj he
  exact h.held s h' hs

theorem Acts.wellFormed (ha : Acts splice st a st') (h : WellFormed st) : WellFormed st' := by
  cases ha with
  | opens s name =>
    have hnew : st.target name < max st.unused (st.target name + 1) :=
      Nat.lt_of_lt_of_le (Nat.lt_succ_self _) (Nat.le_max_right ..)
    constructor
    · intro n i hn
      rcases update_eq_some.mp hn with ⟨-, ⟨⟩⟩ | ⟨-, hn⟩
      · exact hnew
      · exact Nat.lt_of_lt_of_le (h.named n i hn) (Nat.le_max_left ..)
    · intro s' h' hs'
      rcases update_eq_some.mp hs' with ⟨-, ⟨⟩⟩ | ⟨-, hs'⟩
      · exact hnew
      · exact Nat.lt_of_lt_of_le (h.held s' h' hs') (Nat.le_max_left ..)
    · intro n n' i hn hn'
      rcases update_eq_some.mp hn with ⟨rfl, ⟨⟩⟩ | ⟨-, hold⟩ <;>
        rcases update_eq_some.mp hn' with ⟨rfl, he⟩ | ⟨-, hold'⟩
      · rfl
      · exact (h.target hold').symm
      · exact h.target (hold.trans he.symm)
      · exact h.single n n' i hold hold'
  | closes s => exact h.streams (by simp) st.contents
  | @removes name j hj =>
    have hold : ∀ n i, update st.names name none n = some i → st.names n = some i := by
      intro n i hn
      rcases update_eq_some.mp hn with ⟨-, ⟨⟩⟩ | ⟨-, hn⟩
      exact hn
    exact ⟨fun n i hn => h.named n i (hold n i hn), h.held,
      fun n n' i hn hn' => h.single n n' i (hold n i hn) (hold n' i hn')⟩
  | @renames old new j hj =>
    by_cases hon : old = new
    · simp only [hon, if_true]
      exact h
    · simp only [hon, if_false]
      have hold : ∀ n i, update (update st.names new (some j)) old none n = some i →
          n ≠ old ∧ (n = new ∧ j = i ∨ n ≠ new ∧ st.names n = some i) := by
        intro n i hn
        rcases update_eq_some.mp hn with ⟨-, ⟨⟩⟩ | ⟨hne, hn⟩
        rcases update_eq_some.mp hn with ⟨he, ⟨⟩⟩ | hn
        · exact ⟨hne, Or.inl ⟨he, rfl⟩⟩
        · exact ⟨hne, Or.inr hn⟩
      refine ⟨fun n i hn => ?_, h.held, fun n n' i hn hn' => ?_⟩
      · obtain ⟨-, ⟨-, rfl⟩ | ⟨-, hn⟩⟩ := hold n i hn
        · exact h.named old j hj
        · exact h.named n i hn
      · obtain ⟨hne, ⟨rfl, rfl⟩ | ⟨-, hkept⟩⟩ := hold n i hn <;>
          obtain ⟨hne', ⟨rfl, he⟩ | ⟨-, hkept'⟩⟩ := hold n' _ hn'
        · rfl
        · exact absurd (h.single n' old j hkept' hj) hne'
        · exact absurd (h.single n old j (he ▸ hkept) hj) hne
        · exact h.single n n' i hkept hkept'
  | seeks offset hs => exact h.moved hs offset st.contents
  | reads hs => exact h.moved hs _ st.contents
  | writes put hs => exact h.moved hs _ _

theorem Runs.wellFormed (h : Runs splice st actions st') (hst : WellFormed st) :
    WellFormed st' :=
  h.keeps (P := fun _ => True) (fun _ _ _ hst _ ha => ha.wellFormed hst) hst fun _ _ => trivial

theorem Acts.removed (ha : Acts splice st (.removes name) st') :
    ∃ i, st.names name = some i ∧ st' = { st with names := update st.names name none } := by
  cases ha with
  | removes hi => exact ⟨_, hi, rfl⟩

theorem Acts.renamed {old new : ν} (ha : Acts splice st (.renames old new) st') :
    ∃ i, st.names old = some i ∧ st' = { st with
      names := if old = new then st.names
        else update (update st.names new (some i)) old none } := by
  cases ha with
  | renames hi => exact ⟨_, hi, rfl⟩

omit [DecidableEq σ] in
/-- Removing the only name of a file loses it. -/
theorem WellFormed.lost (h : WellFormed st) (hi : st.names name = some i) :
    Lost { st with names := update st.names name none } i := by
  refine ⟨h.named name i hi, fun n hn => ?_⟩
  rcases update_eq_some.mp hn with ⟨-, ⟨⟩⟩ | ⟨hne, hn⟩
  exact hne (h.single n name i hn hi)

/-- A stream after an action stands in the file it stood in, or the action has opened its file. -/
theorem Acts.stream (ha : Acts splice st a st') {s : σ} {h' : Handle}
    (hs : st'.streams s = some h') :
    (∃ h, st.streams s = some h ∧ h.file = h'.file ∧ h.writable = h'.writable) ∨
      ∃ n, a = .opens s n ∧ h'.file = st.target n := by
  cases ha with
  | opens s₀ n =>
    rcases update_eq_some.mp hs with ⟨rfl, ⟨⟩⟩ | ⟨-, hs⟩
    · exact Or.inr ⟨n, rfl, rfl⟩
    · exact Or.inl ⟨h', hs, rfl, rfl⟩
  | closes s₀ =>
    rcases update_eq_some.mp hs with ⟨-, ⟨⟩⟩ | ⟨-, hs⟩
    exact Or.inl ⟨h', hs, rfl, rfl⟩
  | removes | renames => exact Or.inl ⟨h', hs, rfl, rfl⟩
  | seeks _ hs₀ | reads hs₀ | writes _ hs₀ =>
    rcases update_eq_some.mp hs with ⟨rfl, ⟨⟩⟩ | ⟨-, hs⟩
    · exact Or.inl ⟨_, hs₀, rfl, rfl⟩
    · exact Or.inl ⟨h', hs, rfl, rfl⟩

/-- An action changes no file but one it opens or writes. -/
theorem Acts.contents (ha : Acts splice st a st') (hw : Unwritten st i)
    (hopen : ∀ s n, a = .opens s n → st.target n ≠ i) : st'.contents i = st.contents i := by
  cases ha with
  | opens s n => exact update_of_ne (Ne.symm (hopen s n rfl)) _ _
  | writes put hs hwritable =>
    refine update_of_ne ?_ _ _
    rintro rfl
    rw [hw _ _ hs rfl] at hwritable
    cases hwritable
  | _ => rfl

theorem Acts.unwritten (ha : Acts splice st a st') (hw : Unwritten st i)
    (hopen : ∀ s n, a = .opens s n → st.target n ≠ i) : Unwritten st' i := by
  intro s h' hs he
  rcases ha.stream hs with ⟨h, hold, hfile, hwritable⟩ | ⟨n, hn, hfile⟩
  · rw [← hwritable]
    exact hw s h hold (hfile.trans he)
  · exact absurd (hfile.symm.trans he) (hopen s n hn)

/-- A name that the action does not mention leads where it led. -/
theorem Acts.names (ha : Acts splice st a st') (hm : ¬ a.Mentions name) :
    st'.names name = st.names name := by
  cases ha with
  | opens s n => exact update_of_ne (fun he => hm he.symm) _ _
  | removes hn => exact update_of_ne (fun he => hm he.symm) _ _
  | @renames old new j hj =>
    simp only [Action.Mentions, not_or] at hm
    change (if old = new then st.names else _) name = st.names name
    split
    · rfl
    · rw [update_of_ne (Ne.symm hm.1), update_of_ne (Ne.symm hm.2)]
  | _ => rfl

/-- A name that leads nowhere does so until it is used. -/
theorem Runs.unnamed (h : Runs splice st actions st') (hname : st.names name = none)
    (hm : ∀ a ∈ actions, ¬ a.Mentions name) : st'.names name = none :=
  h.keeps (P := fun a => ¬ a.Mentions name) (I := fun st' => st'.names name = none)
    (fun _ _ _ hn hm ha => (ha.names hm).trans hn) hname hm

/-- A file whose name nobody uses, and which no stream may write, stays as it is. -/
theorem Runs.unmentioned (h : Runs splice st actions st') (hwf : WellFormed st)
    (hname : st.names name = some i) (hw : Unwritten st i)
    (hm : ∀ a ∈ actions, ¬ a.Mentions name) :
    st'.names name = some i ∧ st'.contents i = st.contents i ∧ Unwritten st' i := by
  refine (h.keeps (P := fun a => ¬ a.Mentions name) (I := fun st' => WellFormed st' ∧
    st'.names name = some i ∧ st'.contents i = st.contents i ∧ Unwritten st' i) ?_
    ⟨hwf, hname, rfl, hw⟩ hm).2
  rintro st₁ a st₂ ⟨hwf, hname, hcontents, hw⟩ hm ha
  have hopen : ∀ s n, a = .opens s n → st₁.target n ≠ i := by
    rintro s n rfl
    exact hwf.target_ne hname hm
  exact ⟨ha.wellFormed hwf, (ha.names hm).trans hname, (ha.contents hw hopen).trans hcontents,
    ha.unwritten hw hopen⟩

theorem Acts.lost (ha : Acts splice st a st') (h : Lost st i) : Lost st' i := by
  cases ha with
  | opens s name =>
    refine ⟨Nat.lt_of_lt_of_le h.used (Nat.le_max_left ..), fun n hn => ?_⟩
    rcases update_eq_some.mp hn with ⟨-, he⟩ | ⟨-, hn⟩
    · exact h.target_ne name (Option.some.inj he)
    · exact h.unnamed n hn
  | removes =>
    refine ⟨h.used, fun n hn => ?_⟩
    rcases update_eq_some.mp hn with ⟨-, ⟨⟩⟩ | ⟨-, hn⟩
    exact h.unnamed n hn
  | @renames old new j hj =>
    refine ⟨h.used, fun n hn => ?_⟩
    change (if old = new then st.names else _) n = some i at hn
    split at hn
    · exact h.unnamed n hn
    · rcases update_eq_some.mp hn with ⟨-, ⟨⟩⟩ | ⟨-, hn⟩
      rcases update_eq_some.mp hn with ⟨-, he⟩ | ⟨-, hn⟩
      · exact h.unnamed old (hj.trans he)
      · exact h.unnamed n hn
  | closes | seeks | reads | writes => exact ⟨h.used, h.unnamed⟩

/-- A file that has lost its name stays without one, and whoever stands in it has stood in it before.
It changes only through the streams that could write it when it was lost. -/
theorem Runs.lost (h : Runs splice st actions st') (hlost : Lost st i) :
    Lost st' i ∧
      (∀ s h', st'.streams s = some h' → h'.file = i →
        ∃ h, st.streams s = some h ∧ h.file = i ∧ h.writable = h'.writable) ∧
      (Unwritten st i → st'.contents i = st.contents i) := by
  refine h.keeps (P := fun _ => True) (I := fun st' => Lost st' i ∧
    (∀ s h', st'.streams s = some h' → h'.file = i →
      ∃ h, st.streams s = some h ∧ h.file = i ∧ h.writable = h'.writable) ∧
    (Unwritten st i → st'.contents i = st.contents i)) ?_
    ⟨hlost, fun s h' hs he => ⟨h', hs, he, rfl⟩, fun _ => rfl⟩ fun _ _ => trivial
  rintro st₁ a st₂ ⟨hlost, hstood, hcontents⟩ - ha
  refine ⟨ha.lost hlost, fun s h' hs he => ?_, fun hw => ?_⟩
  · rcases ha.stream hs with ⟨h₁, hold, hfile, hwritable⟩ | ⟨n, -, hfile⟩
    · rw [← hwritable]
      exact hstood s h₁ hold (hfile.trans he)
    · exact absurd (hfile.symm.trans he) (hlost.target_ne n)
  · have hw₁ : Unwritten st₁ i := by
      intro s h₁ hs he
      obtain ⟨h, hold, hfile, hwritable⟩ := hstood s h₁ hs he
      rw [← hwritable]
      exact hw s h hold hfile
    exact (ha.contents hw₁ fun s n _ => hlost.target_ne n).trans (hcontents hw)

end FileStore
