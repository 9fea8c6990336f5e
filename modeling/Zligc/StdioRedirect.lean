import Zligc.StdioOutcome
import Zligc.StdioOutput

/-!
# Redirected streams

A redirection stays only where lookups find the number of the stream in its
record: where freopen gets the descriptor again that it has just closed. Then
the stream goes on writing the file it was redirected to, whatever is done with
the other streams.
-/
namespace Stdio

open Effect CellMemory Zig Zligc OsFile Function

/-- The streams in `live` hold open descriptors, each its own one. -/
structure Tidy (live : Stream → Prop) (w : World) : Prop where
  settled : Settled w
  held : ∀ fd, live fd → ∃ h, w.records fd = some h ∧ (w.kernel.table h).isSome
  apart : ∀ fd fd', live fd → live fd' → w.records fd = w.records fd' → fd = fd'
  allocated : ∀ fd, live fd → Allocated w fd

/-- The streams that are live after a call: the one it returns and those it did not close. -/
def Call.Leaves (live : Stream → Prop) (r : Option Stream) (c : Call) (fd : Stream) : Prop :=
  r = some fd ∨ live fd ∧ ¬ c.Reopens fd

/-- The run closes and reopens live streams only. -/
def Orderly : (Stream → Prop) → World → List Call → Prop
  | _, _, [] => True
  | live, w, c :: calls =>
    (∀ fd, c.Reopens fd → live fd) ∧
      ∀ r w', c.run.run w = .ok r w' → Orderly (c.Leaves live r) w' calls

/-- The record of `fd` holds a descriptor that is open for writing on the file `i`. -/
def Leads (w : World) (fd : Stream) (i : Nat) : Prop :=
  ∃ h d, w.records fd = some h ∧ w.kernel.table h = some d ∧ d.inode = i ∧ d.writable = true

theorem leads_access {w w' : World} {fd : Stream} {i : Nat} {h : Int32} {d : Description}
    (hrec : w.records fd = some h) (hd : w.kernel.table h = some d) (hi : d.inode = i)
    (hw : d.writable = true) (hsame : w'.records fd = w.records fd)
    (haccess : (w'.kernel.table h).map access = (w.kernel.table h).map access) :
    Leads w' fd i := by
  rw [hd, Option.map_some, Option.map_eq_some_iff] at haccess
  obtain ⟨d', hd', hacc⟩ := haccess
  simp only [access, Prod.mk.injEq] at hacc
  exact ⟨h, d', hsame.trans hrec, hd', hacc.1.trans hi, hacc.2.2.trans hw⟩

section Descriptors

variable {live : Stream → Prop} {w w₁ w' : World} {c : Call} {r : Option Stream} {fd : Stream}
  {path : List UInt8}

/-- Opening a path leaves open descriptors as they are. -/
theorem Opening.table (h : Opening path fd w r w') {k : Int32} (hk : (w.kernel.table k).isSome) :
    w'.kernel.table k = w.kernel.table k := by
  cases h with
  | failed _ _ _ htable => rw [htable]
  | opened _ _ hfile _ htable =>
    rw [htable, update_of_ne]
    rintro rfl
    rw [w.kernel.policy.fresh _ _ hfile] at hk
    cases hk

/-- The stream that was opened holds a fresh descriptor of the file that the path names. -/
theorem Opening.returned {fd' : Stream} (h : Opening path fd w (some fd') w') :
    fd' = fd ∧ ∃ file i, w'.records fd = some file ∧ w.kernel.table file = none ∧
      w'.kernel.table file = some ⟨i, 0, false, true⟩ ∧ w'.kernel.paths path = some i ∧
      w'.kernel.contents i = [] := by
  cases h with
  | opened _ _ hfile hrec htable hpath hcontents =>
    refine ⟨rfl, _, _, by rw [hrec, update_self], w.kernel.policy.fresh _ _ hfile, ?_, hpath, ?_⟩
    · rw [htable, update_self]
    · rw [hcontents, update_self]

/-- Closing one live stream leaves the descriptors of the others as they are. -/
theorem Tidy.closing (h : Tidy live w) (hc : Closing fd w w') (hfd : live fd) {fd' : Stream}
    (hfd' : live fd') (hne : fd' ≠ fd) {k : Int32} (hk : w.records fd' = some k) :
    w'.kernel.table k = w.kernel.table k := by
  obtain ⟨k', hk', _⟩ := h.held fd hfd
  rw [hc.kernel, hk', Option.getD_some]
  refine update_of_ne ?_ _ _
  rintro rfl
  exact hne (h.apart fd' fd hfd' hfd (hk.trans hk'.symm))

/-- The call leaves the descriptor of a live stream that it does not close open on its file. -/
theorem Outcome.access (h : Outcome w c r w') (ht : Tidy live w)
    (hlive : ∀ fd', c.Reopens fd' → live fd') (hfd : live fd) (hne : ¬ c.Reopens fd) {k : Int32}
    (hk : w.records fd = some k) :
    (w'.kernel.table k).map Stdio.access = (w.kernel.table k).map Stdio.access := by
  obtain ⟨k', hk', hopen⟩ := ht.held fd hfd
  obtain rfl := Option.some.inj (hk.symm.trans hk')
  cases h with
  | quiet _ h => exact h.files.2 k
  | opened _ _ _ hkernel _ _ hopening =>
    rw [← hkernel] at hopen
    rw [hopening.table hopen, hkernel]
  | reopened hre _ hclosing hopening =>
    have htable := ht.closing hclosing (hlive _ ((hre _).mpr rfl)) hfd
      (fun he => hne ((hre fd).mpr he)) hk
    rw [hopening.table (by rw [htable]; exact hopen), htable]
  | closed hre _ hclosing =>
    rw [ht.closing hclosing (hlive _ ((hre _).mpr rfl)) hfd (fun he => hne ((hre fd).mpr he)) hk]

/-- A stream that a call returns holds an open descriptor, which is not that of a live stream. -/
theorem Outcome.returned (h : Outcome w c (some fd) w') (ht : Tidy live w)
    (hlive : ∀ fd', c.Reopens fd' → live fd') :
    Allocated w' fd ∧ ∃ file, w'.records fd = some file ∧ (w'.kernel.table file).isSome ∧
      ∀ fd', live fd' → ¬ c.Reopens fd' → w.records fd' ≠ some file := by
  cases h with
  | opened _ _ _ hkernel hall _ hopening =>
    obtain ⟨rfl, file, i, hrec, hfree, htable, _⟩ := hopening.returned
    refine ⟨hopening.steady.allocated hall, file, hrec, by rw [htable]; rfl, ?_⟩
    intro fd' hfd' _ he
    obtain ⟨k, hk, hopen⟩ := ht.held fd' hfd'
    obtain rfl := Option.some.inj (hk.symm.trans he)
    rw [← hkernel, hfree] at hopen
    cases hopen
  | reopened hre _ hclosing hopening =>
    obtain ⟨rfl, file, i, hrec, hfree, htable, _⟩ := hopening.returned
    have hclosed := hlive fd ((hre fd).mpr rfl)
    refine ⟨hopening.steady.allocated (hclosing.allocated (ht.allocated fd hclosed)), file, hrec,
      by rw [htable]; rfl, ?_⟩
    intro fd' hfd' hne he
    obtain ⟨k, hk, hopen⟩ := ht.held fd' hfd'
    obtain rfl := Option.some.inj (hk.symm.trans he)
    rw [← ht.closing hclosing hclosed hfd' (fun he => hne ((hre fd').mpr he)) hk, hfree] at hopen
    cases hopen

/-- What a call does to a live stream that it does not close. -/
theorem Outcome.kept (h : Outcome w c r w') (ht : Tidy live w)
    (hlive : ∀ fd', c.Reopens fd' → live fd') (hfd : live fd) (hne : ¬ c.Reopens fd) :
    w'.records fd = w.records fd ∧ Allocated w' fd ∧
      ∃ k, w.records fd = some k ∧ (w'.kernel.table k).isSome := by
  obtain ⟨k, hk, hopen⟩ := ht.held fd hfd
  refine ⟨h.keeps fd (ht.allocated fd hfd) hne, h.allocated (ht.allocated fd hfd), k, hk, ?_⟩
  rw [← Option.isSome_map (f := Stdio.access), h.access ht hlive hfd hne hk, Option.isSome_map]
  exact hopen

/-- The streams that are live after a call are tidy again. -/
theorem Outcome.tidy (h : Outcome w c r w') (ht : Tidy live w)
    (hlive : ∀ fd', c.Reopens fd' → live fd') : Tidy (c.Leaves live r) w' := by
  constructor
  · exact h.settled ht.settled
  · rintro fd (rfl | ⟨hfd, hne⟩)
    · obtain ⟨_, file, hrec, hopen, _⟩ := h.returned ht hlive
      exact ⟨file, hrec, hopen⟩
    · obtain ⟨hrec, _, k, hk, hopen⟩ := h.kept ht hlive hfd hne
      exact ⟨k, hrec.trans hk, hopen⟩
  · rintro fd fd' (rfl | ⟨hfd, hne⟩) (hr | ⟨hfd', hne'⟩) he
    · exact Option.some.inj hr
    · obtain ⟨_, file, hrec, _, hother⟩ := h.returned ht hlive
      obtain ⟨hrec', _⟩ := h.kept ht hlive hfd' hne'
      exact absurd (hrec'.symm.trans (he.symm.trans hrec)) (hother fd' hfd' hne')
    · subst hr
      obtain ⟨_, file, hrec, _, hother⟩ := h.returned ht hlive
      obtain ⟨hrec', _⟩ := h.kept ht hlive hfd hne
      exact absurd (hrec'.symm.trans (he.trans hrec)) (hother fd hfd hne)
    · obtain ⟨hrec, _⟩ := h.kept ht hlive hfd hne
      obtain ⟨hrec', _⟩ := h.kept ht hlive hfd' hne'
      exact ht.apart fd fd' hfd hfd' (hrec.symm.trans (he.trans hrec'))
  · rintro fd (rfl | ⟨hfd, hne⟩)
    · exact (h.returned ht hlive).1
    · exact (h.kept ht hlive hfd hne).2.1

/-- A live stream goes on leading to its file. -/
theorem Outcome.leads {i : Nat} (h : Outcome w c r w') (ht : Tidy live w)
    (hlive : ∀ fd', c.Reopens fd' → live fd') (hfd : live fd) (hne : ¬ c.Reopens fd)
    (hleads : Leads w fd i) : Leads w' fd i := by
  obtain ⟨k, d, hk, hd, hi, hw⟩ := hleads
  exact leads_access hk hd hi hw (h.keeps fd (ht.allocated fd hfd) hne)
    (h.access ht hlive hfd hne hk)

end Descriptors

section Runs

variable {live : Stream → Prop} {w w' : World} {calls : List Call} {fd : Stream}

/-- After the first part of a run the live streams are tidy, and the rest is orderly. -/
theorem runCalls_tidy {pre post : List Call} (ht : Tidy live w)
    (hm : Meets Call.Restores w (pre ++ post)) (ho : Orderly live w (pre ++ post))
    (hrun : (runCalls pre).run w = .ok () w') :
    ∃ live', Tidy live' w' ∧ Orderly live' w' post := by
  induction pre generalizing live w with
  | nil =>
    obtain rfl : w = w' := (EStateM.Result.ok.inj hrun).2
    exact ⟨live, ht, ho⟩
  | cons c pre ih =>
    cases hcall : c.run.run w with
    | ok r w₁ =>
      have hout := call_outcome ht.settled hm.1 w rfl
      rw [hcall] at hout
      rw [runCalls, bind_ok hcall] at hrun
      exact ih (hout.tidy ht ho.1) (hm.2 r w₁ hcall) (ho.2 r w₁ hcall) hrun
    | error e w₁ =>
      rw [runCalls, bind_error hcall] at hrun
      cases hrun

/-- Until it is closed or reopened, a live stream leads to the same file. -/
theorem runCalls_leads {i : Nat} (ht : Tidy live w) (hm : Meets Call.Restores w calls)
    (ho : Orderly live w calls) (hfd : live fd) (hne : ∀ c, c ∈ calls → ¬ c.Reopens fd)
    (hleads : Leads w fd i) (hrun : (runCalls calls).run w = .ok () w') :
    Settled w' ∧ Leads w' fd i := by
  induction calls generalizing live w with
  | nil =>
    obtain rfl : w = w' := (EStateM.Result.ok.inj hrun).2
    exact ⟨ht.settled, hleads⟩
  | cons c calls ih =>
    rw [List.forall_mem_cons] at hne
    cases hcall : c.run.run w with
    | ok r w₁ =>
      have hout := call_outcome ht.settled hm.1 w rfl
      rw [hcall] at hout
      rw [runCalls, bind_ok hcall] at hrun
      exact ih (hout.tidy ht ho.1) (hm.2 r w₁ hcall) (ho.2 r w₁ hcall) (Or.inr ⟨hfd, hne.1⟩) hne.2
        (hout.leads ht ho.1 hfd hne.1 hleads) hrun
    | error e w₁ =>
      rw [runCalls, bind_error hcall] at hrun
      cases hrun

end Runs

section Outputs

variable {w : World} {fd : Stream} {i : Nat}

/-- The stream leads to `i`, and no other file has changed since `w`. -/
def OnlyFile (w : World) (fd : Stream) (i : Nat) (w' : World) : Prop :=
  Settled w' ∧ Leads w' fd i ∧ ∀ j, j ≠ i → w'.kernel.contents j = w.kernel.contents j

theorem onlyFile_lookup :
    Triple (OnlyFile w fd i) (readOpaqueHandle (some fd))
      (fun fd' w' => fd' = fd ∧ OnlyFile w fd i w') (OnlyFile w fd i) := by
  intro w' ⟨hs, hleads, hsame⟩
  rw [lookup_some, hs.looked_eq]
  exact ⟨rfl, ⟨hs.resolved, hs.own⟩, hleads, hsame⟩

theorem onlyFile_write (bytes : List UInt8) :
    Triple (OnlyFile w fd i) (File.write fd bytes) (fun _ => OnlyFile w fd i)
      (OnlyFile w fd i) := by
  intro w' ⟨hs, ⟨h, d, hrec, hd, hi, hw⟩, hsame⟩
  rw [File.write, apply_run, hrec, Option.getD_some]
  refine ⟨⟨hs.resolved, hs.own⟩,
    leads_access hrec hd hi hw rfl ((sameFiles_write w'.kernel h bytes).2 h), ?_⟩
  intro j hj
  rw [← hsame j hj]
  simp only [Kernel.write, hd, hw, if_true, Kernel.tick, Kernel.seek_contents]
  exact update_of_ne (hi ▸ hj) _ _

theorem OnlyFile.memory {w' : World} (h : OnlyFile w fd i w') (m : Mem) :
    OnlyFile w fd i { w' with mem := m } :=
  ⟨⟨h.1.resolved, h.1.own⟩, h.2.1, h.2.2⟩

/-- A writer that goes on after the lookup. -/
theorem onlyFile_after_lookup {α : Type} {f : Stream → Run World α}
    (hf : Triple (OnlyFile w fd i) (f fd) (fun _ => OnlyFile w fd i) (OnlyFile w fd i)) :
    Triple (OnlyFile w fd i) (readOpaqueHandle (some fd) >>= f) (fun _ => OnlyFile w fd i)
      (OnlyFile w fd i) := by
  refine triple_bind onlyFile_lookup fun fd' => ?_
  rintro w' ⟨rfl, h⟩
  exact hf w' h

theorem onlyFile_fputc (ch : Int32) :
    Triple (OnlyFile w fd i) (fputc ch (some fd)) (fun _ => OnlyFile w fd i)
      (OnlyFile w fd i) := by
  refine onlyFile_after_lookup ?_
  apply triple_bind (triple_check (castU8_moves ch) fun _ h => h)
  intro b
  apply triple_bind (onlyFile_write [b])
  intro success
  cases success with
  | true => exact triple_pure fun _ h => h
  | false => exact triple_pure fun _ h => h

theorem onlyFile_fputs (str : Option Nat) :
    Triple (OnlyFile w fd i) (fputs str (some fd)) (fun _ => OnlyFile w fd i)
      (OnlyFile w fd i) := by
  refine onlyFile_after_lookup ?_
  apply triple_bind (triple_check (unwrap_moves str) fun _ h => h)
  intro p
  apply triple_bind (triple_onMem _ (fun _ m h => h.memory m) fun _ h => h)
  intro s
  apply triple_bind (onlyFile_write s)
  intro success
  cases success with
  | false => exact triple_pure fun _ h => h
  | true =>
    apply triple_bind (onlyFile_write [10])
    intro success
    cases success with
    | true => exact triple_pure fun _ h => h
    | false => exact triple_pure fun _ h => h

theorem onlyFile_fwrite (buffer size count : Nat) :
    Triple (OnlyFile w fd i) (fwrite buffer size count (some fd)) (fun _ => OnlyFile w fd i)
      (OnlyFile w fd i) := by
  refine onlyFile_after_lookup ?_
  apply triple_bind (triple_check (mul_moves count size) fun _ h => h)
  intro n
  apply triple_bind (triple_onMem _ (fun _ m h => h.memory m) fun _ h => h)
  intro b
  apply triple_bind (onlyFile_write b)
  intro success
  cases success with
  | true => exact triple_pure fun _ h => h
  | false => exact triple_pure fun _ h => h

/-- A writer changes no file but that of its stream, whether it succeeds or not. -/
theorem onlyFile_output {c : Output} (hon : c.On fd) :
    Triple (OnlyFile w fd i) (c.call fd).run (fun _ => OnlyFile w fd i) (OnlyFile w fd i) := by
  cases c with
  | fputc ch | putc ch => exact triple_map _ (onlyFile_fputc ch)
  | putchar ch =>
    obtain rfl : fd = .stdout_file := hon
    exact triple_map _ (onlyFile_fputc ch)
  | fputs str => exact triple_map _ (onlyFile_fputs _)
  | puts str =>
    obtain rfl : fd = .stdout_file := hon
    exact triple_map _ (onlyFile_fputs _)
  | fwrite buffer size count => exact triple_map _ (onlyFile_fwrite buffer size count)

end Outputs

/-- The call writes into the file `i` what it denotes, and into no other file. -/
structure WritesTo (w : World) (fd : Stream) (i : Nat) (c : Output) : Prop where
  only : ∀ j, j ≠ i →
    (after ((c.call fd).run.run w)).kernel.contents j = w.kernel.contents j
  there : (∀ n, w.kernel.policy.fails n = false) → c.InRange → ∀ bytes, c.Means w.mem bytes →
    ∃ offset, (after ((c.call fd).run.run w)).kernel.contents i =
      writeAt (w.kernel.contents i) offset (c.written bytes)

/-- A stream that leads to a file is a sink with the content of that file. -/
theorem Leads.sink {w : World} {fd : Stream} {i : Nat} (h : Leads w fd i) (hs : Settled w)
    (hreliable : ∀ n, w.kernel.policy.fails n = false) :
    ∃ offset, Sink w fd (w.kernel.contents i) offset := by
  obtain ⟨k, d, hrec, hd, rfl, hw⟩ := h
  refine ⟨d.offset, k, d, ⟨⟨hrec, fun n hn => ⟨?_, hs.resolved⟩, hd⟩, hreliable⟩, hw, rfl, rfl⟩
  exact Option.some.inj (hrec.symm.trans (hs.own fd n hn))

theorem Leads.content {w : World} {fd : Stream} {i offset : Nat} {content : List UInt8}
    (h : Leads w fd i) (hsink : Sink w fd content offset) : w.kernel.contents i = content := by
  obtain ⟨k, d, hrec, hd, rfl, _⟩ := h
  obtain ⟨k', d', hopen, _, rfl, _⟩ := hsink
  obtain rfl := Option.some.inj (hrec.symm.trans hopen.record)
  obtain rfl := Option.some.inj (hd.symm.trans hopen.described)
  rfl

theorem Leads.writesTo {w : World} {fd : Stream} {i : Nat} (h : Leads w fd i) (hs : Settled w)
    {c : Output} (hon : c.On fd) : WritesTo w fd i c := by
  have hafter := triple_after (onlyFile_output (w := w) hon) ⟨hs, h, fun _ _ => rfl⟩
  refine ⟨hafter.2.2, fun hreliable hin bytes hm => ?_⟩
  obtain ⟨offset, hsink⟩ := h.sink hs hreliable
  obtain ⟨w', hrun, _, hsink', _⟩ := output_step hsink hm hon hin
  rw [hrun] at hafter ⊢
  exact ⟨offset, hafter.2.1.content hsink'⟩

/-- A freopen that succeeds leads its stream to the file that the path now names, which it has
emptied. -/
theorem freopen_leads {w w' : World} {fd : Stream} {filename mode : Nat} {path : List UInt8}
    (hpath : StringAt w.mem filename path)
    (hrun : (freopen (some filename) mode (some fd)).run w = .ok (some fd) w') :
    ∃ i, w'.kernel.paths path = some i ∧ w'.kernel.contents i = [] ∧ Leads w' fd i := by
  rw [freopen_run] at hrun
  rcases openInto_cases filename fd (closed fd (looked w)) with
    ⟨e, m, herror⟩ | ⟨path', m, r, w₁, hname, hok, _, hopening⟩
  · rw [herror] at hrun
    cases hrun
  · have hmem : (closed fd (looked w)).mem = w.mem := looked_mem w
    rw [hmem, Slice.toSliceConst_run hpath] at hname
    obtain rfl := (EStateM.Result.ok.inj hname).1
    rw [hok] at hrun
    obtain ⟨rfl, rfl⟩ := EStateM.Result.ok.inj hrun
    obtain ⟨_, file, i, hrec, _, htable, hi, hempty⟩ := hopening.returned
    exact ⟨i, hi, hempty, file, _, hrec, htable, rfl, rfl⟩

/-- Where every standard stream that is closed or reopened has its handle afterwards, a record
changes only through fopen, freopen or fclose on its own stream, and a stream that freopen has
redirected writes to the new file until it is reopened or closed itself. -/
theorem redirection_stays {w : World} (hs : Settled w) {calls : List Call}
    (hm : Meets Call.Restores w calls) :
    (∀ pre post fd w₁, calls = pre ++ post → (runCalls pre).run w = .ok () w₁ →
      Allocated w₁ fd → (∀ c, c ∈ post → ¬ c.Reopens fd) →
      (after ((runCalls post).run w₁)).records fd = w₁.records fd) ∧
    ∀ live, Tidy live w → Orderly live w calls →
      ∀ pre filename mode fd post w₁ w₂ w₃ path,
        calls = pre ++ .freopen (some filename) mode (some fd) :: post →
        (runCalls pre).run w = .ok () w₁ → StringAt w₁.mem filename path →
        (freopen (some filename) mode (some fd)).run w₁ = .ok (some fd) w₂ →
        (∀ c, c ∈ post → ¬ c.Reopens fd) → (runCalls post).run w₂ = .ok () w₃ →
        ∃ i, w₂.kernel.paths path = some i ∧ ∀ c : Output, c.On fd → WritesTo w₃ fd i c := by
  constructor
  · rintro pre post fd w₁ rfl hpre hall hne
    obtain ⟨hs₁, hm₁⟩ := runCalls_settled hs hm hpre
    exact runCalls_keeps hs₁ hm₁ hall hne
  · rintro live ht ho pre filename mode fd post w₁ w₂ w₃ path rfl hpre hpath hre hne hpost
    obtain ⟨hs₁, hm₁⟩ := runCalls_settled hs hm hpre
    obtain ⟨live₁, ht₁, ho₁⟩ := runCalls_tidy ht hm ho hpre
    obtain ⟨i, hi, _, hleads⟩ := freopen_leads hpath hre
    have hout := call_outcome hs₁ hm₁.1 w₁ rfl
    rw [show (Call.freopen (some filename) mode (some fd)).run.run w₁ = _ from hre] at hout
    obtain ⟨hs₃, hleads₃⟩ := runCalls_leads (hout.tidy ht₁ ho₁.1) (hm₁.2 _ _ hre) (ho₁.2 _ _ hre)
      (Or.inl rfl) hne hleads hpost
    exact ⟨i, hi, fun c hon => hleads₃.writesTo hs₃ hon⟩

@[simp] theorem ready_records (mem : Mem) (input : List UInt8) (fd : Stream) :
    (readyWorld mem input).records fd = standard fd := by
  cases fd <;> rfl

theorem ready_settled (mem : Mem) (input : List UInt8) : Settled (readyWorld mem input) :=
  ⟨(by decide : (1 : UInt8) ≠ 0), fun fd _ hn => (ready_records mem input fd).trans hn⟩

theorem standard_inj {fd fd' : Stream} (hfd : (standard fd).isSome)
    (h : standard fd = standard fd') : fd = fd' := by
  cases fd <;> cases fd' <;> simp_all [standard]

/-- The standard streams of a process are tidy once they have been initialised. -/
theorem ready_tidy (mem : Mem) (input : List UInt8) :
    Tidy (fun fd => (standard fd).isSome) (readyWorld mem input) := by
  refine ⟨ready_settled mem input, fun fd hfd => ?_, fun fd fd' hfd _ he => ?_, fun fd hfd => ?_⟩
  · rw [ready_records]
    cases fd with
    | stdin_file | stdout_file | stderr_file => exact ⟨_, rfl, rfl⟩
    | created addr => cases hfd
  · rw [ready_records, ready_records] at he
    exact standard_inj hfd he
  · obtain ⟨n, hn⟩ := Option.isSome_iff_exists.mp hfd
    exact standard_allocated hn

/-- Redirecting standard output to the file "a". -/
def redirect : Call := .freopen (some 0x10000) 0x10002 (some .stdout_file)

theorem redirect_restores : redirect.Restores (readyWorld stringMem []) := by
  rintro n path m ⟨⟩ hname
  exact ⟨fun _ => by decide +kernel, fun _ => rfl⟩

theorem redirection_stays_example :
    ∃ i, (after (redirect.run.run (readyWorld stringMem []))).kernel.paths [97] = some i ∧
      ∀ c : Output, c.On .stdout_file → WritesTo
        (after ((runCalls [.fgetc (some .stdin_file)]).run
          (after (redirect.run.run (readyWorld stringMem []))))) .stdout_file i c := by
  have hmeets : Meets Call.Restores (readyWorld stringMem [])
      [redirect, .fgetc (some .stdin_file)] :=
    ⟨redirect_restores, fun _ _ _ => ⟨trivial, fun _ _ _ => trivial⟩⟩
  have horderly : Orderly (fun fd => (standard fd).isSome) (readyWorld stringMem [])
      [redirect, .fgetc (some .stdin_file)] := by
    refine ⟨?_, fun _ _ _ => ⟨fun _ => False.elim, fun _ _ _ => trivial⟩⟩
    rintro fd ⟨⟩
    rfl
  have hfirst := ok_of_value (r := redirect.run.run (readyWorld stringMem []))
    (a := some .stdout_file) (by decide +kernel)
  have hrest := ok_of_value (r := (runCalls [.fgetc (some .stdin_file)]).run
    (after (redirect.run.run (readyWorld stringMem [])))) (a := ()) (by decide +kernel)
  exact (redirection_stays (ready_settled _ _) hmeets).2 _ (ready_tidy _ _) horderly []
    0x10000 0x10002 .stdout_file _ _ _ _ [97] rfl rfl string_a hfirst
    (List.forall_mem_singleton.mpr id) hrest

/-- With standard input closed, the redirected standard output gets the descriptor 0, and the next
putchar takes its record back to 1: it does not write to the file. -/
theorem redirection_lost :
    let w := after ((fclose (some .stdin_file)).run (readyWorld stringMem []))
    let w' := after (redirect.run.run w)
    value? (redirect.run.run w) = some (some .stdout_file) ∧ w'.kernel.paths [97] = some 3 ∧
      w'.records .stdout_file = some 0 ∧
      (after ((runCalls [.putchar 65]).run w')).records .stdout_file = some 1 ∧
      (after ((runCalls [.putchar 65]).run w')).kernel.contents 3 = [] := by
  decide +kernel

end Stdio
