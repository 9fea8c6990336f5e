import Zligc.StdioFiles
import Zligc.StdioSimulation

/-!
# What becomes of names and files

Runs of the library inherit what holds of runs of the store: a file that no call names and no live
stream writes stays as it is, a removed file is never opened again, and a renamed one is found under
its new name.
-/
namespace Stdio

open Effect CellMemory Zig Zligc OsFile Function FileStore

/-- The call may use the name. -/
def Call.Names (m : Mem) (name : List UInt8) (c : Call) : Prop :=
  ∃ a, c.Allows m a ∧ a.Mentions name

/-- The record of the stream holds a descriptor that is open on the file. -/
def Stands (w : World) (fd : Stream) (i : Nat) : Prop :=
  ∃ h d, w.records fd = some h ∧ w.kernel.table h = some d ∧ d.inode = i

section Runs

variable {live live' : Stream → Prop} {w w₁ w' : World} {calls : List Call} {i : Nat}
  {name : List UInt8}

theorem view_stream {fd : Stream} {h : Handle} (hs : (view live w).streams fd = some h) :
    live fd ∧ ∃ n d, w.records fd = some n ∧ w.kernel.table n = some d ∧ h = handleOf d := by
  simp only [view] at hs
  split at hs
  · rename_i hfd
    obtain ⟨d, hd, rfl⟩ := Option.map_eq_some_iff.mp hs
    obtain ⟨n, hn, hd⟩ := Option.bind_eq_some_iff.mp hd
    exact ⟨hfd, n, d, hn, hd, rfl⟩
  · cases hs

theorem view_unwritten (h : ∀ fd, live fd → ¬ Leads w fd i) : Unwritten (view live w) i := by
  intro fd handle hs hi
  obtain ⟨hfd, n, d, hn, hd, rfl⟩ := view_stream hs
  by_contra hw
  exact h fd hfd ⟨n, d, hn, hd, hi, by simpa [handleOf] using hw⟩

theorem Meets.mono {P Q : World → Call → Prop} (h : Meets P w calls)
    (himp : ∀ w c, P w c → Q w c) : Meets Q w calls := by
  induction calls generalizing w with
  | nil => trivial
  | cons c calls ih => exact ⟨himp w c h.1, fun r w' hrun => ih (h.2 r w' hrun)⟩

/-- A run in which no call uses a name has no action that mentions it. -/
theorem Mirrors.unmentioned {actions : List (Action (List UInt8) Stream UInt8)}
    (h : Mirrors live w calls actions live' w')
    (hno : Meets (fun w c => ¬ c.Names w.mem name) w calls) :
    ∀ a ∈ actions, ¬ a.Mentions name :=
  h.forall (hno.mono fun _ _ hc a ha hm => hc ⟨a, ha, hm⟩)

/-- A file that no call names and no live stream may write has its name and its content after the
run, whatever the run does to other files. -/
theorem unmentioned_kept (ht : Tidy live w) (hm : Meets Call.Restores w calls)
    (hp : Proper live w calls) (hsingle : SinglyNamed w.kernel)
    (hname : w.kernel.paths name = some i) (hw : ∀ fd, live fd → ¬ Leads w fd i)
    (hno : Meets (fun w c => ¬ c.Names w.mem name) w calls)
    (hrun : (runCalls calls).run w = .ok () w') :
    w'.kernel.paths name = some i ∧ w'.kernel.contents i = w.kernel.contents i := by
  obtain ⟨live', actions, -, hf⟩ := runCalls_mirrors ht hm hp hrun
  obtain ⟨hname', hcontents, -⟩ := hf.runs.unmentioned (view_wellFormed live hsingle) hname
    (view_unwritten hw) (hf.unmentioned hno)
  exact ⟨hname', hcontents⟩

/-- The process in which "a" names the file on standard input, with initialised streams. -/
def namedWorld : World := { heldWorld with resolved := 1, records := initialised fun _ => none }

theorem named_tidy : Tidy (fun fd => (standard fd).isSome) namedWorld :=
  (ready_tidy stringMem [120]).undisturbed
    ⟨⟨(ready_settled stringMem [120]).resolved, (ready_settled stringMem [120]).own⟩, rfl, rfl,
      Nat.le_refl _, rfl, fun _ => rfl⟩

theorem named_single : SinglyNamed namedWorld.kernel := by
  intro p q i hp hq
  rcases update_eq_some.mp hp with ⟨hp, -⟩ | ⟨-, ⟨⟩⟩
  rcases update_eq_some.mp hq with ⟨hq, -⟩ | ⟨-, ⟨⟩⟩
  rw [hp, hq]

theorem named_unwritten (fd : Stream) (hfd : (standard fd).isSome) : ¬ Leads namedWorld fd 0 := by
  rintro ⟨h, d, hrec, hd, hi, hw⟩
  cases fd with
  | stdin_file =>
    obtain rfl := Option.some.inj hrec
    obtain rfl := Option.some.inj hd
    cases hw
  | stdout_file | stderr_file =>
    obtain rfl := Option.some.inj hrec
    obtain rfl := Option.some.inj hd
    cases hi
  | created addr => cases hfd

theorem unmentioned_kept_example :
    (after ((runCalls [.putchar 65]).run namedWorld)).kernel.paths [97] = some 0 ∧
      (after ((runCalls [.putchar 65]).run namedWorld)).kernel.contents 0 =
        namedWorld.kernel.contents 0 := by
  have hmeets : Meets Call.Restores namedWorld [.putchar 65] := ⟨trivial, fun _ _ _ => trivial⟩
  refine unmentioned_kept named_tidy hmeets ?_ named_single rfl named_unwritten ?_
    (ok_of_value (a := ()) (by decide +kernel))
  · refine ⟨?_, fun _ _ _ => trivial⟩
    rintro _ rfl
    rfl
  · refine ⟨?_, fun _ _ _ => trivial⟩
    rintro ⟨_, ⟨_, _, _, _, rfl⟩, hm⟩
    exact hm

/-- A call that neither opens nor closes leaves the live streams tidy. -/
theorem Tidy.quiet {c : Call} (ht : Tidy live w) (hc : ∀ fd, ¬ c.Reopens fd) (hre : c.Restores w)
    (hrun : c.run.run w = .ok none w') : Tidy live w' := by
  have hout := call_outcome ht.settled hre w rfl
  rw [hrun] at hout
  have hleaves : c.Leaves live none = live :=
    funext fun fd => propext (by simp [Call.Leaves, hc])
  have htidy := hout.tidy ht fun fd h => (hc fd h).elim
  rwa [hleaves] at htidy

/-- Where a stream of the view stands. -/
theorem view_stands {fd : Stream} (hfd : live fd) (h : Stands w fd i) :
    ∃ handle, (view live w).streams fd = some handle ∧ handle.file = i := by
  obtain ⟨n, d, hn, hd, hi⟩ := h
  exact ⟨handleOf d, view_live hfd hn hd, hi⟩

/-- After a successful remove of the only name of a file no run finds the file again: no name leads
to it, the live streams that stand in it stood in it before, and its content is the old one unless
one of these may write it. -/
theorem removed_lost {p : Nat} (ht : Tidy live w) (hsingle : SinglyNamed w.kernel)
    (hname : Named w.mem p name) (hi : w.kernel.paths name = some i)
    (hremove : (remove (some p)).run w = .ok 0 w₁) (hm : Meets Call.Restores w₁ calls)
    (hp : Proper live w₁ calls) (hrun : (runCalls calls).run w₁ = .ok () w') :
    (∀ q, w'.kernel.paths q ≠ some i) ∧
      (∃ live' actions, Mirrors live w₁ calls actions live' w' ∧
        ∀ fd, live' fd → Stands w' fd i → live fd ∧ Stands w fd i) ∧
      ((∀ fd, live fd → ¬ Leads w fd i) → w'.kernel.contents i = w.kernel.contents i) := by
  obtain ⟨q, path, hq, hpath, ⟨hfail, -⟩ | ⟨-, hacts⟩⟩ := remove_acts live hremove
  · cases hfail
  obtain rfl := Option.some.inj hq
  obtain rfl : name = path := (EStateM.Result.ok.inj (hname.symm.trans hpath)).1
  obtain ⟨-, -, hview⟩ := hacts.removed
  have ht₁ : Tidy live w₁ :=
    ht.quiet (c := .remove (some p)) (fun _ h => h) trivial (map_ok hremove _)
  have hlost := (view_wellFormed live hsingle).lost hi
  rw [← hview] at hlost
  obtain ⟨live', actions, -, hf⟩ := runCalls_mirrors ht₁ hm hp hrun
  obtain ⟨hlost', hstood, hcontents⟩ := hf.runs.lost hlost
  refine ⟨hlost'.unnamed, ⟨live', actions, hf, fun fd hfd hstands => ?_⟩, fun hw => ?_⟩
  · obtain ⟨handle', hs', hi'⟩ := view_stands hfd hstands
    obtain ⟨handle, hs, hfile, -⟩ := hstood fd handle' hs' hi'
    rw [hview] at hs
    obtain ⟨hlive, m, d, hm, hd, rfl⟩ := view_stream hs
    exact ⟨hlive, m, d, hm, hd, hfile⟩
  · have hunwritten := view_unwritten hw
    have hcontents₁ := congrArg Store.contents hview
    refine (hcontents ?_).trans (congrFun hcontents₁ i)
    rw [hview]
    exact hunwritten

theorem removed_lost_example :
    (∀ q, (after ((runCalls [.fopen 0x10000 0x10002]).run
        (after ((remove (some 0x10000)).run namedWorld)))).kernel.paths q ≠ some 0) ∧
      (∃ live' actions, Mirrors (fun fd => (standard fd).isSome)
          (after ((remove (some 0x10000)).run namedWorld)) [.fopen 0x10000 0x10002] actions live'
          (after ((runCalls [.fopen 0x10000 0x10002]).run
            (after ((remove (some 0x10000)).run namedWorld)))) ∧
        ∀ fd, live' fd → Stands (after ((runCalls [.fopen 0x10000 0x10002]).run
            (after ((remove (some 0x10000)).run namedWorld)))) fd 0 →
          (standard fd).isSome ∧ Stands namedWorld fd 0) ∧
      ((∀ fd, (standard fd).isSome → ¬ Leads namedWorld fd 0) →
        (after ((runCalls [.fopen 0x10000 0x10002]).run
          (after ((remove (some 0x10000)).run namedWorld)))).kernel.contents 0 =
            namedWorld.kernel.contents 0) := by
  have hname : Named namedWorld.mem 0x10000 [97] := Slice.toSliceConst_run string_a
  exact removed_lost named_tidy named_single hname rfl
    (ok_of_value (a := (0 : Int32)) (by decide +kernel)) ⟨trivial, fun _ _ _ => trivial⟩
    ⟨fun _ h => h.elim, fun _ _ _ => trivial⟩ (ok_of_value (a := ()) (by decide +kernel))

/-- After a successful rename the new name leads to the file, with the content it had, for as long
as no call uses that name and no live stream writes the file. The old name leads nowhere until it is
used again. -/
theorem renamed_kept {p q : Nat} {new : List UInt8} (ht : Tidy live w)
    (hsingle : SinglyNamed w.kernel) (hold : Named w.mem p name) (hnew : Named w.mem q new)
    (hne : name ≠ new) (hi : w.kernel.paths name = some i)
    (hrename : (rename (some p) (some q)).run w = .ok 0 w₁) (hm : Meets Call.Restores w₁ calls)
    (hp : Proper live w₁ calls) (hrun : (runCalls calls).run w₁ = .ok () w') :
    (Meets (fun w c => ¬ c.Names w.mem name) w₁ calls → w'.kernel.paths name = none) ∧
      (Meets (fun w c => ¬ c.Names w.mem new) w₁ calls → (∀ fd, live fd → ¬ Leads w fd i) →
        w'.kernel.paths new = some i ∧ w'.kernel.contents i = w.kernel.contents i) := by
  obtain ⟨p', q', old', new', hp', hq', hold', hnew', ⟨hfail, -⟩ | ⟨-, hacts⟩⟩ :=
    rename_acts live hrename
  · cases hfail
  obtain rfl := Option.some.inj hp'
  obtain rfl := Option.some.inj hq'
  obtain rfl : name = old' := (EStateM.Result.ok.inj (hold.symm.trans hold')).1
  obtain rfl : new = new' := (EStateM.Result.ok.inj (hnew.symm.trans hnew')).1
  obtain ⟨j, hj, hview⟩ := hacts.renamed
  obtain rfl : i = j := Option.some.inj (hi.symm.trans hj)
  rw [if_neg hne] at hview
  have ht₁ : Tidy live w₁ :=
    ht.quiet (c := .rename (some p) (some q)) (fun _ h => h) trivial (map_ok hrename _)
  have hwf := hacts.wellFormed (view_wellFormed live hsingle)
  obtain ⟨live', actions, -, hf⟩ := runCalls_mirrors ht₁ hm hp hrun
  refine ⟨fun hno => ?_, fun hno hw => ?_⟩
  · refine hf.runs.unnamed ?_ (hf.unmentioned hno)
    rw [hview]
    exact update_self ..
  · have hname₁ : (view live w₁).names new = some i := by
      rw [hview]
      exact (update_of_ne (Ne.symm hne) _ _).trans (update_self ..)
    have hunwritten : Unwritten (view live w₁) i := by
      rw [hview]
      exact view_unwritten hw
    obtain ⟨hname', hcontents, -⟩ := hf.runs.unmentioned hwf hname₁ hunwritten (hf.unmentioned hno)
    exact ⟨hname', hcontents.trans (congrFun (congrArg Store.contents hview) i)⟩

theorem renamed_kept_example :
    (Meets (fun w c => ¬ c.Names w.mem [97])
        (after ((rename (some 0x10000) (some 0x10002)).run namedWorld)) [.putchar 65] →
      (after ((runCalls [.putchar 65]).run
        (after ((rename (some 0x10000) (some 0x10002)).run namedWorld)))).kernel.paths [97] =
          none) ∧
      (Meets (fun w c => ¬ c.Names w.mem [119])
          (after ((rename (some 0x10000) (some 0x10002)).run namedWorld)) [.putchar 65] →
        (∀ fd, (standard fd).isSome → ¬ Leads namedWorld fd 0) →
        (after ((runCalls [.putchar 65]).run
          (after ((rename (some 0x10000) (some 0x10002)).run namedWorld)))).kernel.paths [119] =
            some 0 ∧
        (after ((runCalls [.putchar 65]).run
          (after ((rename (some 0x10000) (some 0x10002)).run namedWorld)))).kernel.contents 0 =
            namedWorld.kernel.contents 0) := by
  have hold : Named namedWorld.mem 0x10000 [97] := Slice.toSliceConst_run string_a
  have hnew : Named namedWorld.mem 0x10002 [119] :=
    Slice.toSliceConst_run (m := stringMem) ⟨by decide, by decide⟩
  refine renamed_kept named_tidy named_single hold hnew (by decide) rfl
    (ok_of_value (a := (0 : Int32)) (by decide +kernel)) ⟨trivial, fun _ _ _ => trivial⟩ ?_
    (ok_of_value (a := ()) (by decide +kernel))
  refine ⟨?_, fun _ _ _ => trivial⟩
  rintro _ rfl
  rfl

end Runs

end Stdio
