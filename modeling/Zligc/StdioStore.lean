import Zligc.StdioRedirect
import Zligc.FileStore

/-!
# The library as a store of named files

A program sees the operating system through the names of files and through the streams it holds.
Every call, whatever fails in it, is a sequence of actions on this store: the descriptors, the
records and the memory that the library takes do not show.
-/
namespace Stdio

open Effect CellMemory Zig Zligc OsFile Function FileStore

def handleOf (d : Description) : Handle := ⟨d.inode, d.offset, d.readable, d.writable⟩

open Classical in
/-- The store that a program sees through the streams in `live`. -/
noncomputable def view (live : Stream → Prop) (w : World) : Store (List UInt8) Stream UInt8 where
  names := w.kernel.paths
  contents := w.kernel.contents
  streams fd := if live fd then ((w.records fd).bind w.kernel.table).map handleOf else none
  unused := w.kernel.unused

/-- The string is the terminated one at `p`. -/
def Named (m : Mem) (p : Nat) (s : List UInt8) : Prop := (Slice.toSliceConst p).run m = .ok s m

/-- From `k` to `k'` the descriptor `h` has moved to `offset` and the contents are as given. -/
structure Shifted (k k' : Kernel) (h : Int32) (d : Description) (offset : Nat)
    (contents : Nat → List UInt8) : Prop where
  table : k'.table = update k.table h (some { d with offset := offset })
  contents : k'.contents = contents
  paths : k'.paths = k.paths
  unused : k'.unused = k.unused

section Kernels

variable {k : Kernel} {h : Int32} {d : Description}

theorem shifted_tick (hd : k.table h = some d) : Shifted k k.tick h d d.offset k.contents :=
  ⟨(update_eq_self_iff.mpr hd.symm).symm, rfl, rfl, rfl⟩

theorem shifted_seek (hd : k.table h = some d) (p : Nat) :
    Shifted k (k.seek h p).tick h d p k.contents := by
  refine ⟨Kernel.seek_table k hd p, Kernel.seek_contents k h p, ?_, ?_⟩
  · change (k.seek h p).paths = k.paths
    unfold Kernel.seek
    split <;> rfl
  · change (k.seek h p).unused = k.unused
    unfold Kernel.seek
    split <;> rfl

/-- A read moves the descriptor over what it got. -/
theorem read_shifted (hd : k.table h = some d) (n : Nat) :
    ∃ got, Shifted k (k.read h n).1 h d (d.offset + got.length) k.contents ∧
      got <+: (k.contents d.inode).drop d.offset ∧ (d.readable = false → got = []) := by
  unfold Kernel.read
  simp only [hd]
  split
  · rename_i hr
    refine ⟨_, shifted_seek hd _, (List.take_prefix _ _).trans (List.take_prefix _ _), ?_⟩
    intro hno
    rw [hr] at hno
    cases hno
  · exact ⟨[], shifted_tick hd, List.nil_prefix, fun _ => rfl⟩

/-- A write puts a part of its bytes, all of them unless it fails. -/
theorem write_shifted (hd : k.table h = some d) (bytes : List UInt8) :
    ∃ put, put <+: bytes ∧ (d.writable = false → put = []) ∧
      Shifted k (k.write h bytes).1 h d (d.offset + put.length)
        (update k.contents d.inode (writeAt (k.contents d.inode) d.offset put)) := by
  unfold Kernel.write
  simp only [hd]
  split
  · rename_i hw
    refine ⟨if k.policy.fails k.clock then
      bytes.take (k.policy.amount k.clock bytes.length) else bytes, ?_, ?_, ?_⟩
    · split
      · exact List.take_prefix _ _
      · exact List.prefix_rfl
    · intro hno
      rw [hw] at hno
      cases hno
    · obtain ⟨htable, hcontents, hpaths, hunused⟩ := shifted_seek (k := { k with
        contents := update k.contents d.inode (writeAt (k.contents d.inode) d.offset
          (if k.policy.fails k.clock then
            bytes.take (k.policy.amount k.clock bytes.length) else bytes)) }) hd _
      exact ⟨htable, hcontents, hpaths, hunused⟩
  · refine ⟨[], List.nil_prefix, fun _ => rfl, ?_⟩
    have hsame : writeAt (k.contents d.inode) d.offset [] = k.contents d.inode := if_pos rfl
    rw [hsame, update_eq_self]
    exact shifted_tick hd

theorem seekTo_shifted (hd : k.table h = some d) (offset : Nat) :
    ∃ p, Shifted k (k.seekTo h offset).1 h d p k.contents := by
  unfold Kernel.seekTo
  split
  · exact ⟨_, shifted_seek hd _⟩
  · exact ⟨_, shifted_tick hd⟩

theorem seekForward_shifted (hd : k.table h = some d) (amount : Int) :
    ∃ p, Shifted k (k.seekForward h amount).1 h d p k.contents := by
  unfold Kernel.seekForward
  simp only [hd]
  split
  · exact ⟨_, shifted_seek hd _⟩
  · exact ⟨_, shifted_tick hd⟩

theorem getPos_shifted (hd : k.table h = some d) :
    Shifted k (k.getPos h).1 h d d.offset k.contents := by
  unfold Kernel.getPos
  simp only [hd]
  exact shifted_tick hd

end Kernels

section Views

variable {live : Stream → Prop} {w w' : World} {fd : Stream} {h : Int32} {d : Description}

theorem view_live (hfd : live fd) (hrec : w.records fd = some h) (hd : w.kernel.table h = some d) :
    (view live w).streams fd = some (handleOf d) := by
  simp [view, hfd, hrec, hd]

theorem view_closed (hfd : ¬ live fd) : (view live w).streams fd = none := by
  simp [view, hfd]

theorem view_shifted {offset : Nat} {contents : Nat → List UInt8} (ht : Tidy live w)
    (hfd : live fd) (hrec : w.records fd = some h) (hsame : w'.records = w.records)
    (hk : Shifted w.kernel w'.kernel h d offset contents) :
    view live w' = { view live w with
      contents := contents
      streams := update (view live w).streams fd (some { handleOf d with offset := offset }) } := by
  have hstreams : (view live w').streams =
      update (view live w).streams fd (some { handleOf d with offset := offset }) := by
    funext fd'
    by_cases he : fd' = fd
    · subst he
      rw [update_self]
      simp [view, hfd, hsame, hrec, hk.table, handleOf]
    · rw [update_of_ne he]
      by_cases hlive : live fd'
      · obtain ⟨h', hrec', -⟩ := ht.held fd' hlive
        have hne : h' ≠ h := by
          rintro rfl
          exact he (ht.apart fd' fd hlive hfd (hrec'.trans hrec.symm))
        simp [view, hlive, hsame, hrec', hk.table, hne]
      · rw [view_closed hlive, view_closed hlive]
  rw [← hstreams]
  simp [view, hk.contents, hk.paths, hk.unused]

/-- Live streams stay tidy where no record has changed and no descriptor was opened or closed. -/
theorem Tidy.undisturbed (ht : Tidy live w) (hu : Undisturbed w w') : Tidy live w' := by
  refine ⟨hu.settled, fun fd hfd => ?_, fun fd fd' hfd hfd' he => ?_, fun fd hfd addr hcreated => ?_⟩
  · obtain ⟨h, hrec, hopen⟩ := ht.held fd hfd
    refine ⟨h, (congrFun hu.records fd).trans hrec, ?_⟩
    rw [← Option.isSome_map (f := Stdio.access), hu.files.2 h, Option.isSome_map]
    exact hopen
  · rw [hu.records] at he
    exact ht.apart fd fd' hfd hfd' he
  · have hlt := ht.allocated fd hfd addr hcreated
    have hle := hu.used
    rw [hu.base]
    omega

/-- Moving the descriptor of a stream is a seek. -/
theorem seeks_runs {p : Nat} (ht : Tidy live w) (hfd : live fd) (hrec : w.records fd = some h)
    (hd : w.kernel.table h = some d) (hsame : w'.records = w.records)
    (hk : Shifted w.kernel w'.kernel h d p w.kernel.contents) :
    Runs writeAt (view live w) [.seeks fd p] (view live w') := by
  rw [view_shifted ht hfd hrec hsame hk]
  exact (FileStore.Acts.seeks p (view_live hfd hrec hd)).run

theorem reads_runs {got : List UInt8} (ht : Tidy live w) (hfd : live fd)
    (hrec : w.records fd = some h) (hd : w.kernel.table h = some d)
    (hsame : w'.records = w.records)
    (hk : Shifted w.kernel w'.kernel h d (d.offset + got.length) w.kernel.contents)
    (hgot : got <+: (w.kernel.contents d.inode).drop d.offset)
    (hno : d.readable = false → got = []) :
    ∃ actions, (∀ a ∈ actions, a = .reads fd got) ∧
      Runs writeAt (view live w) actions (view live w') := by
  rw [view_shifted ht hfd hrec hsame hk]
  by_cases hr : d.readable = true
  · exact ⟨[.reads fd got], by simp, (FileStore.Acts.reads (view_live hfd hrec hd) hr hgot).run⟩
  · obtain rfl := hno (by simpa using hr)
    refine ⟨[], by simp, ?_⟩
    rw [List.length_nil, Nat.add_zero, show { handleOf d with offset := d.offset } = handleOf d from
      rfl, ← view_live hfd hrec hd, update_eq_self]
    exact .nil _

theorem writes_runs {put : List UInt8} (ht : Tidy live w) (hfd : live fd)
    (hrec : w.records fd = some h) (hd : w.kernel.table h = some d)
    (hsame : w'.records = w.records) (hno : d.writable = false → put = [])
    (hk : Shifted w.kernel w'.kernel h d (d.offset + put.length) (update w.kernel.contents d.inode
      (writeAt (w.kernel.contents d.inode) d.offset put))) :
    ∃ actions, (∀ a ∈ actions, a = .writes fd put) ∧
      Runs writeAt (view live w) actions (view live w') := by
  rw [view_shifted ht hfd hrec hsame hk]
  by_cases hw : d.writable = true
  · exact ⟨[.writes fd put], by simp, (FileStore.Acts.writes put (view_live hfd hrec hd) hw).run⟩
  · obtain rfl := hno (by simpa using hw)
    refine ⟨[], by simp, ?_⟩
    have hcontents : writeAt (w.kernel.contents d.inode) d.offset [] = w.kernel.contents d.inode :=
      if_pos rfl
    rw [hcontents, update_eq_self, List.length_nil, Nat.add_zero,
      show { handleOf d with offset := d.offset } = handleOf d from rfl, ← view_live hfd hrec hd,
      update_eq_self]
    exact .nil _

end Views

/-- A call that has come from `w` to `w'` has done what it is allowed to the store. -/
structure Doing (live : Stream → Prop) (allowed : Action (List UInt8) Stream UInt8 → Prop)
    (kept : Mem → Prop) (w w' : World) : Prop where
  tidy : Tidy live w'
  memory : kept w'.mem
  runs : ∃ actions, (∀ a ∈ actions, allowed a) ∧
    Runs writeAt (view live w) actions (view live w')

section Walks

variable {live : Stream → Prop} {allowed : Action (List UInt8) Stream UInt8 → Prop}
  {kept : Mem → Prop} {w w₁ w₂ : World} {fd : Stream} {α : Type}

theorem Doing.refl (ht : Tidy live w) (hm : kept w.mem) : Doing live allowed kept w w :=
  ⟨ht, hm, [], by simp, .nil _⟩

theorem Doing.next (h : Doing live allowed kept w w₁) (hu : Undisturbed w₁ w₂)
    (hm : kept w₂.mem) (hruns : ∃ actions, (∀ a ∈ actions, allowed a) ∧
      Runs writeAt (view live w₁) actions (view live w₂)) : Doing live allowed kept w w₂ := by
  obtain ⟨actions, hall, hrun⟩ := h.runs
  obtain ⟨actions', hall', hrun'⟩ := hruns
  refine ⟨h.tidy.undisturbed hu, hm, actions ++ actions', fun a ha => ?_, hrun.append hrun'⟩
  exact (List.mem_append.mp ha).elim (hall a) (hall' a)

/-- A step that does not show. -/
theorem Doing.same (h : Doing live allowed kept w w₁) (hu : Undisturbed w₁ w₂)
    (hm : kept w₂.mem) (hkernel : w₂.kernel = w₁.kernel) : Doing live allowed kept w w₂ := by
  have hview : view live w₂ = view live w₁ := by
    simp [view, hkernel, hu.records]
  refine h.next hu hm ⟨[], by simp, ?_⟩
  rw [hview]
  exact .nil _

/-- What is done when a call faults is not looked at. -/
def anything (_ : World) : Prop := True

theorem doing_lookup (stream : Option Stream) :
    Triple (Doing live allowed kept w) (readOpaqueHandle stream)
      (fun fd w' => stream = some fd ∧ Doing live allowed kept w w') anything := by
  intro w₁ h
  rw [lookup_run, h.tidy.settled.looked_eq]
  cases stream with
  | none => trivial
  | some fd =>
    refine ⟨rfl, h.same ?_ h.memory rfl⟩
    exact (undisturbed_refl h.tidy.settled).next rfl rfl rfl (Nat.le_refl _) (sameFiles_refl _)

theorem doing_check {x : Run World α} (hx : Moves Eq x) :
    Triple (Doing live allowed kept w) x (fun _ => Doing live allowed kept w) anything :=
  triple_check hx fun _ _ => trivial

/-- What a call does with the memory does not show, and it is kept as the call keeps it. -/
theorem doing_memory {x : Run Mem α} (hx : ∀ m, kept m → kept (after (x.run m))) :
    Triple (Doing live allowed kept w) (onMem x) (fun _ => Doing live allowed kept w)
      anything := by
  intro w₁ h
  rw [run_onMem]
  have hm := hx w₁.mem h.memory
  cases hrun : x.run w₁.mem with
  | error e m => trivial
  | ok a m =>
    rw [hrun] at hm
    refine h.same ?_ hm rfl
    exact (undisturbed_refl h.tidy.settled).next rfl rfl rfl (Nat.le_refl _) (sameFiles_refl _)

/-- A part of the memory that is only read. -/
theorem doing_reading {x : Run Mem α} (hx : Moves Eq x) :
    Triple (Doing live allowed kept w) (onMem x)
      (fun a w' => kept w'.mem ∧ x.run w'.mem = .ok a w'.mem ∧ Doing live allowed kept w w')
      anything := by
  intro w₁ h
  rw [run_onMem]
  have hm := hx w₁.mem
  cases hrun : x.run w₁.mem with
  | error e m => trivial
  | ok a m =>
    rw [hrun, after_ok] at hm
    subst hm
    exact ⟨h.memory, hrun, h⟩

/-- An operation on the File of a live stream. -/
theorem doing_apply {f : Kernel → Int32 → Kernel × α} (hfd : live fd)
    (hf : ∀ k h, SameFiles k (f k h).1)
    (hop : ∀ w₁ w₂ h d, Tidy live w₁ → w₁.records fd = some h → w₁.kernel.table h = some d →
      w₂.records = w₁.records → w₂.kernel = (f w₁.kernel h).1 →
      ∃ actions, (∀ a ∈ actions, allowed a) ∧
        Runs writeAt (view live w₁) actions (view live w₂)) :
    Triple (Doing live allowed kept w) (File.apply fd f) (fun _ => Doing live allowed kept w)
      anything := by
  intro w₁ hdo
  obtain ⟨h, hrec, hopen⟩ := hdo.tidy.held fd hfd
  obtain ⟨d, hd⟩ := Option.isSome_iff_exists.mp hopen
  rw [apply_run, hrec, Option.getD_some]
  refine hdo.next ?_ hdo.memory (hop _ _ h d hdo.tidy hrec hd rfl rfl)
  exact (undisturbed_refl hdo.tidy.settled).next rfl rfl rfl (Nat.le_refl _) (hf _ _)

theorem doing_read (hfd : live fd) (hall : ∀ got, allowed (.reads fd got)) (n : Nat) :
    Triple (Doing live allowed kept w) (File.read fd n) (fun _ => Doing live allowed kept w)
      anything := by
  refine doing_apply hfd (fun k h => sameFiles_read k h n) fun w₁ w₂ h d ht hrec hd hsame hk => ?_
  obtain ⟨got, hshift, hgot, hno⟩ := read_shifted hd n
  rw [← hk] at hshift
  obtain ⟨actions, hreads, hrun⟩ := reads_runs ht hfd hrec hd hsame hshift hgot hno
  exact ⟨actions, fun a ha => hreads a ha ▸ hall got, hrun⟩

theorem doing_write (hfd : live fd) {bytes : List UInt8}
    (hall : ∀ put, put <+: bytes → allowed (.writes fd put)) :
    Triple (Doing live allowed kept w) (File.write fd bytes)
      (fun _ => Doing live allowed kept w) anything := by
  refine doing_apply hfd (fun k h => sameFiles_write k h bytes)
    fun w₁ w₂ h d ht hrec hd hsame hk => ?_
  obtain ⟨put, hput, hno, hshift⟩ := write_shifted hd bytes
  rw [← hk] at hshift
  obtain ⟨actions, hwrites, hrun⟩ := writes_runs ht hfd hrec hd hsame hno hshift
  exact ⟨actions, fun a ha => hwrites a ha ▸ hall put hput, hrun⟩

/-- An operation that moves the descriptor. -/
theorem doing_seek {f : Kernel → Int32 → Kernel × α} (hfd : live fd)
    (hall : ∀ p, allowed (.seeks fd p)) (hf : ∀ k h, SameFiles k (f k h).1)
    (hshift : ∀ k h d, k.table h = some d → ∃ p, Shifted k (f k h).1 h d p k.contents) :
    Triple (Doing live allowed kept w) (File.apply fd f) (fun _ => Doing live allowed kept w)
      anything := by
  refine doing_apply hfd hf fun w₁ w₂ h d ht hrec hd hsame hk => ?_
  obtain ⟨p, hp⟩ := hshift w₁.kernel h d hd
  rw [← hk] at hp
  exact ⟨[.seeks fd p], by simpa using hall p, seeks_runs ht hfd hrec hd hsame hp⟩

theorem doing_getPos (hfd : live fd) :
    Triple (Doing live allowed kept w) (File.getPos fd) (fun _ => Doing live allowed kept w)
      anything := by
  refine doing_apply hfd sameFiles_getPos fun w₁ w₂ h d ht hrec hd hsame hk => ?_
  have hshift := getPos_shifted hd
  rw [← hk] at hshift
  refine ⟨[], by simp, ?_⟩
  rw [view_shifted ht hfd hrec hsame hshift,
    show { handleOf d with offset := d.offset } = handleOf d from rfl, ← view_live hfd hrec hd,
    update_eq_self]
  exact .nil _

/-- The rest of a call that looks a handle up. -/
theorem doing_after_lookup {stream : Option Stream} {f : Stream → Run World α}
    (hf : ∀ fd, stream = some fd → Triple (Doing live allowed kept w) (f fd)
      (fun _ => Doing live allowed kept w) anything) :
    Triple (Doing live allowed kept w) (readOpaqueHandle stream >>= f)
      (fun _ => Doing live allowed kept w) anything := by
  refine triple_bind (doing_lookup stream) fun fd => ?_
  rintro w₁ ⟨hfd, h⟩
  exact hf fd hfd w₁ h

/-- A check that gives a value. -/
theorem doing_value {x : Run World α} (hx : Moves Eq x) :
    Triple (Doing live allowed kept w) x
      (fun a w' => x.run w' = .ok a w' ∧ Doing live allowed kept w w') anything := by
  intro w₁ h
  have hm := hx w₁
  cases hrun : x.run w₁ with
  | error e w' => trivial
  | ok a w' =>
    rw [hrun, after_ok] at hm
    subst hm
    exact ⟨hrun, h⟩

/-- A part of a call whose result is used no more. -/
theorem doing_return {x : Run World α} {β : Type} {b : α → β}
    (h : Triple (Doing live allowed kept w) x (fun _ => Doing live allowed kept w) anything) :
    Triple (Doing live allowed kept w) (do return b (← x)) (fun _ => Doing live allowed kept w)
      anything :=
  triple_bind h fun _ => triple_pure fun _ h => h

/-- A loop whose rounds are allowed. -/
theorem doing_loop {β : Type} {body : β → Run World (Turn β α)}
    (h : ∀ b, Triple (Doing live allowed kept w) (body b) (fun _ => Doing live allowed kept w)
      anything) (b : β) :
    Triple (Doing live allowed kept w) (while_ b body) (fun _ => Doing live allowed kept w)
      anything := by
  refine triple_loop (I := fun _ => Doing live allowed kept w) (fun b => ?_)
    (fun _ _ _ => trivial) _ b
  refine triple_conseq (h b) (fun _ h => h) fun turn w hw => ?_
  cases turn <;> exact hw

end Walks

section Memories

theorem load_moves (p i : Nat) : Moves Eq (load p i : Run Mem UInt8) := by
  intro m
  unfold load
  simp only [EStateM.run]
  split <;> rfl

theorem slice_moves (p n : Nat) : Moves Eq (Slice.slice p n) := by
  refine moves_loop (fun bs => ?_) _ _
  split
  · exact moves_bind (load_moves p _) fun _ => moves_pure _
  · exact moves_pure _

theorem strlen_moves (p : Nat) : Moves Eq (ZligcString.strlen p : Run Mem Nat) := by
  refine moves_loop (fun i => ?_) _ _
  refine moves_bind (load_moves p i) fun b => ?_
  split
  · exact moves_bind (add_moves i 1) fun _ => moves_pure _
  · exact moves_pure _

theorem toSliceConst_moves (p : Nat) : Moves Eq (Slice.toSliceConst p) :=
  moves_bind (strlen_moves p) fun n => slice_moves p n

theorem castU8_value {ch : Int32} {b : UInt8} {w w' : World}
    (h : (castU8 ch).run w = .ok b w') : widen b = ch := by
  unfold castU8 at h
  split at h
  · rename_i hr
    obtain ⟨rfl, -⟩ := EStateM.Result.ok.inj h
    exact widen_cast hr
  · cases h

theorem mul_value {a b n : Nat} {w w' : World} (h : (mul a b).run w = .ok n w') : n = a * b := by
  unfold mul at h
  split at h
  · exact (EStateM.Result.ok.inj h).1.symm
  · cases h

end Memories

section Functions

variable {live : Stream → Prop} {allowed : Action (List UInt8) Stream UInt8 → Prop}
  {kept : Mem → Prop} {w : World} {stream : Option Stream}
  (hlive : ∀ fd, stream = some fd → live fd)
include hlive

theorem doing_fgetc (hall : ∀ fd got, stream = some fd → allowed (.reads fd got)) :
    Triple (Doing live allowed kept w) (fgetc stream) (fun _ => Doing live allowed kept w)
      anything := by
  refine doing_after_lookup fun fd hfd => ?_
  refine triple_bind (doing_read (hlive fd hfd) (fun got => hall fd got hfd) 1) fun r => ?_
  obtain ⟨got, success⟩ := r
  cases success with
  | true => exact triple_bind (triple_get fun _ _ => trivial) fun _ => triple_pure fun _ h => h
  | false => exact triple_pure fun _ h => h

theorem doing_fread (hkept : ∀ m, kept m) (hall : ∀ fd got, stream = some fd →
      allowed (.reads fd got)) (buffer size count : Nat) :
    Triple (Doing live allowed kept w) (fread buffer size count stream)
      (fun _ => Doing live allowed kept w) anything := by
  refine doing_after_lookup fun fd hfd => ?_
  refine triple_bind (doing_check (mul_moves count size)) fun n => ?_
  refine triple_bind (doing_read (hlive fd hfd) (fun got => hall fd got hfd) n) fun r => ?_
  obtain ⟨got, success⟩ := r
  exact triple_bind (doing_memory fun _ _ => hkept _) fun _ => triple_pure fun _ h => h

theorem doing_fputc {ch : Int32} (hall : ∀ fd b put, stream = some fd → widen b = ch →
      put <+: [b] → allowed (.writes fd put)) :
    Triple (Doing live allowed kept w) (fputc ch stream) (fun _ => Doing live allowed kept w)
      anything := by
  refine doing_after_lookup fun fd hfd => ?_
  refine triple_bind (doing_value (castU8_moves ch)) fun b => ?_
  rintro w₁ ⟨hb, h⟩
  refine triple_bind (doing_write (hlive fd hfd) fun put => hall fd b put hfd (castU8_value hb))
    (fun success => ?_) w₁ h
  cases success with
  | true => exact triple_pure fun _ h => h
  | false => exact triple_pure fun _ h => h

theorem doing_fputs {m : Mem} {str : Option Nat} (hall : ∀ fd p s put, stream = some fd →
      str = some p → Named m p s → put <+: s ∨ put <+: [10] → allowed (.writes fd put)) :
    Triple (Doing live allowed (· = m) w) (fputs str stream)
      (fun _ => Doing live allowed (· = m) w) anything := by
  refine doing_after_lookup fun fd hfd => ?_
  refine triple_bind (doing_value (unwrap_moves str)) fun p => ?_
  rintro w₁ ⟨hp, h⟩
  refine triple_bind (doing_reading (toSliceConst_moves p)) (fun s => ?_) w₁ h
  rintro w₂ ⟨rfl, hs, h⟩
  have hstr : str = some p := by
    cases str with
    | none => cases hp
    | some q => exact congrArg some (EStateM.Result.ok.inj hp).1
  refine triple_bind (doing_write (hlive fd hfd)
    fun put hput => hall fd p s put hfd hstr hs (Or.inl hput)) (fun success => ?_) w₂ h
  cases success with
  | false => exact triple_pure fun _ h => h
  | true =>
    refine triple_bind (doing_write (hlive fd hfd)
      fun put hput => hall fd p s put hfd hstr hs (Or.inr hput)) fun success => ?_
    cases success with
    | true => exact triple_pure fun _ h => h
    | false => exact triple_pure fun _ h => h

theorem doing_fwriteFrom {m : Mem} {bytes : Nat → Run Mem (List UInt8)} {size count : Nat}
    (hbytes : ∀ n, Moves Eq (bytes n)) (hall : ∀ fd s put, stream = some fd →
      (bytes (count * size)).run m = .ok s m → put <+: s → allowed (.writes fd put)) :
    Triple (Doing live allowed (· = m) w) (fwriteFrom bytes size count stream)
      (fun _ => Doing live allowed (· = m) w) anything := by
  refine doing_after_lookup fun fd hfd => ?_
  refine triple_bind (doing_value (mul_moves count size)) fun n => ?_
  rintro w₁ ⟨hn, h⟩
  obtain rfl := mul_value hn
  refine triple_bind (doing_reading (hbytes _)) (fun s => ?_) w₁ h
  rintro w₂ ⟨rfl, hs, h⟩
  refine triple_bind (doing_write (hlive fd hfd) fun put => hall fd s put hfd hs)
    (fun success => ?_) w₂ h
  cases success with
  | true => exact triple_pure fun _ h => h
  | false => exact triple_pure fun _ h => h

theorem doing_fseek (hall : ∀ fd p, stream = some fd → allowed (.seeks fd p)) (offset : Int64)
    (origin : Int32) :
    Triple (Doing live allowed kept w) (fseek stream offset origin)
      (fun _ => Doing live allowed kept w) anything := by
  refine doing_after_lookup fun fd hfd => ?_
  split
  · refine triple_bind (doing_check (castUsize_moves _)) fun n => ?_
    refine triple_bind (doing_seek (hlive fd hfd) (fun p => hall fd p hfd)
      (fun k h => sameFiles_seekTo k h n) fun k h d hd => seekTo_shifted hd n) fun success => ?_
    cases success with
    | true => exact triple_pure fun _ h => h
    | false => exact triple_pure fun _ h => h
  · split
    · refine triple_bind (doing_seek (hlive fd hfd) (fun p => hall fd p hfd)
        (fun k h => sameFiles_seekForward k h offset.toInt)
        fun k h d hd => seekForward_shifted hd offset.toInt) fun success => ?_
      cases success with
      | true => exact triple_pure fun _ h => h
      | false => exact triple_pure fun _ h => h
    · split
      · exact triple_throw fun _ _ => trivial
      · exact triple_throw fun _ _ => trivial

theorem doing_ftell :
    Triple (Doing live allowed kept w) (ftell stream) (fun _ => Doing live allowed kept w)
      anything := by
  refine doing_after_lookup fun fd hfd => ?_
  refine triple_bind (doing_getPos (hlive fd hfd)) fun pos => ?_
  cases pos with
  | none => exact triple_pure fun _ h => h
  | some pos => exact doing_check (castLong_moves pos)

theorem doing_rewind (hall : ∀ fd p, stream = some fd → allowed (.seeks fd p)) :
    Triple (Doing live allowed kept w) (rewind stream) (fun _ => Doing live allowed kept w)
      anything := by
  refine doing_after_lookup fun fd hfd => ?_
  refine triple_bind (doing_seek (hlive fd hfd) (fun p => hall fd p hfd)
    (fun k h => sameFiles_seekTo k h 0) fun k h d hd => seekTo_shifted hd 0) fun success => ?_
  cases success with
  | true => exact triple_pure fun _ h => h
  | false => exact triple_throw fun _ _ => trivial

theorem doing_fgets (hkept : ∀ m, kept m) (hall : ∀ fd got, stream = some fd →
      allowed (.reads fd got)) (s : Nat) (size : Int32) :
    Triple (Doing live allowed kept w) (fgets s size stream) (fun _ => Doing live allowed kept w)
      anything := by
  have hround : ∀ i, Triple (Doing live allowed kept w) (fgetsRound s size stream i)
      (fun _ => Doing live allowed kept w) anything := by
    intro i
    refine triple_bind (doing_check (castUsize_moves _)) fun n => ?_
    refine triple_bind (doing_check (sub_moves n 1)) fun limit => ?_
    split
    · refine triple_bind (doing_fgetc hlive hall) fun ch => ?_
      have hstore : ∀ f : Nat → Turn Nat Nat, Triple (Doing live allowed kept w) (do
          onMem (store s i (← castU8 ch))
          return f (← add i 1) : Run World (Turn Nat Nat)) (fun _ => Doing live allowed kept w)
          anything := by
        intro f
        refine triple_bind (doing_check (castU8_moves ch)) fun b => ?_
        refine triple_bind (doing_memory fun _ _ => hkept _) fun _ => ?_
        exact doing_return (doing_check (add_moves i 1))
      split
      · exact triple_pure fun _ h => h
      · split
        · exact hstore .done
        · exact hstore .next
    · exact triple_pure fun _ h => h
  refine triple_bind (doing_loop hround 0) fun i => ?_
  exact triple_bind (doing_memory fun _ _ => hkept _) fun _ => triple_pure fun _ h => h

theorem doing_test_fprintf {m : Mem} (hall : ∀ fd put, stream = some fd →
      allowed (.writes fd put)) (fmt : Nat) :
    Triple (Doing live allowed (· = m) w) (test_fprintf stream fmt)
      (fun _ => Doing live allowed (· = m) w) anything := by
  have hload : ∀ i, Triple (Doing live allowed (· = m) w) (onMem (load fmt i))
      (fun _ => Doing live allowed (· = m) w) anything :=
    fun i => doing_memory fun m' h => (load_moves fmt i m').symm.trans h
  have hputc : ∀ ch, Triple (Doing live allowed (· = m) w) (fputc ch stream)
      (fun _ => Doing live allowed (· = m) w) anything :=
    fun ch => doing_fputc hlive fun fd _ put hfd _ _ => hall fd put hfd
  refine doing_return (doing_loop (fun i => ?_) 0)
  refine triple_bind (hload i) fun c => ?_
  split
  · refine triple_bind (hload i) fun ch => ?_
    refine triple_bind (doing_check (add_moves i 1)) fun i => ?_
    split
    · exact doing_return (hputc _)
    · refine triple_bind (hload i) fun ch => ?_
      refine triple_bind (doing_check (add_moves i 1)) fun i => ?_
      split
      · exact triple_pure fun _ h => h
      · split
        · exact doing_return (hputc _)
        · refine triple_bind (triple_get fun _ _ => trivial) fun w' => ?_
          exact doing_return (doing_fwriteFrom hlive (fun _ => moves_pure _)
            fun fd _ put hfd _ _ => hall fd put hfd)
  · exact triple_pure fun _ h => h

end Functions

end Stdio
