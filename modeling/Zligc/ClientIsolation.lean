import Zligc.ClientReuse
import Zligc.StdioFrame

/-!
# Memory that a program was given

Blocks and File records come out of one buffer at ascending addresses, and no address is ever given
out twice. A block keeps its content until a call is told to write into it. The library has data of
its own in memory too: beside its globals, the File records and the copies of paths that it puts
into the same buffer. What a call does to these is left open: their bytes may change in any way
before and after it.
-/
namespace Client

open Effect CellMemory Zig Zligc Allocator Arena Stdio

/-- Where the free part of the buffer begins. -/
def top (w : World) : Nat := w.fixed.base + w.fixed.end_index

/-- The place is not in the free part of the buffer. -/
def Outside (w : World) (p : Nat) : Prop := p < top w ∨ w.fixed.base + capacity ≤ p

/-- The call stores another File in the record of a stream. -/
def Call.Renews : Call → Stream → Prop
  | .stdio c, fd => c.Reopens fd
  | .heap _, _ => False

/-- The byte belongs to the record at the address. -/
def InRecord (addr p : Nat) : Prop := addr ≤ p ∧ p < addr + sizeOfFile

/-- Where a call may write data of the library: at the addresses `own` of the library's globals and
stack, in the free part of the buffer, and in the record of a stream whose File it replaces. -/
def Call.Internal (own : Nat → Prop) (w : World) (c : Call) (p : Nat) : Prop :=
  own p ∨ ¬ Outside w p ∨ ∃ addr, c.Renews (.created addr) ∧ InRecord addr p

/-- A call, before and after which the data of the library may become any other. -/
inductive Does (own : Nat → Prop) (c : Call) (w : World) :
    EStateM.Result Fault World Answer → Prop where
  | ok {m m' : Mem} {a : Answer} {w' : World} :
      Retains (fun p => ¬ c.Internal own w p) w.mem m →
      c.run.run { w with mem := m } = .ok a w' →
      Retains (fun p => ¬ c.Internal own w p) w'.mem m' → Does own c w (.ok a { w' with mem := m' })
  | error {m m' : Mem} {e : Fault} {w' : World} :
      Retains (fun p => ¬ c.Internal own w p) w.mem m →
      c.run.run { w with mem := m } = .error e w' →
      Retains (fun p => ¬ c.Internal own w p) w'.mem m' →
      Does own c w (.error e { w' with mem := m' })

/-- The calls of a run with what they returned. -/
inductive Logged (own : Nat → Prop) : World → List (Call × Answer) → World → Prop where
  | nil (w : World) : Logged own w [] w
  | cons {w w' w'' : World} {c : Call} {a : Answer} {log : List (Call × Answer)} :
      Does own c w (.ok a w') → Logged own w' log w'' → Logged own w ((c, a) :: log) w''

/-- The states in which a run of the calls may end: behind the last one, or where one has faulted. -/
inductive Ends (own : Nat → Prop) : World → List Call → World → Prop where
  | nil (w : World) : Ends own w [] w
  | fault {w w' : World} {c : Call} {e : Fault} (calls : List Call) :
      Does own c w (.error e w') → Ends own w (c :: calls) w'
  | cons {w w' w'' : World} {c : Call} {a : Answer} {calls : List Call} :
      Does own c w (.ok a w') → Ends own w' calls w'' → Ends own w (c :: calls) w''

/-- The bytes that the allocator has set aside for a call, if any: as many as the call requested
for a block, which calloc does not multiply, and the record of a stream that was created. -/
def piece : Call × Answer → Option Block
  | (.heap c, .block (some p)) => (c.requested.filter (0 < ·)).map fun n => ⟨p, n⟩
  | (.stdio (.fopen _ _), .stream (some (.created addr))) => some ⟨addr, sizeOfFile⟩
  | (.stdio (.fopen64 _ _), .stream (some (.created addr))) => some ⟨addr, sizeOfFile⟩
  | _ => none

/-- fopen has returned the stream with the record at the address. -/
def Opened (log : List (Call × Answer)) (addr : Nat) : Prop :=
  ∃ filename mode, (.stdio (.fopen filename mode), .stream (some (.created addr))) ∈ log ∨
    (.stdio (.fopen64 filename mode), .stream (some (.created addr))) ∈ log

/-- The blocks lie between `lo` and `hi`, each behind the one before. -/
def Ascending (lo : Nat) : List Block → Nat → Prop
  | [], hi => lo ≤ hi
  | b :: blocks, hi => lo ≤ b.addr ∧ Ascending (b.addr + b.len) blocks hi

/-- How many bytes the blocks have together. -/
def total : List Block → Nat
  | [] => 0
  | b :: blocks => b.len + total blocks

/-- The place in memory where a call is told to write. -/
def Call.Given : Call → Nat → Prop
  | .heap (.write q _), p => p = q
  | .heap _, _ => False
  | .stdio c, p => c.Fills p

section Pieces

variable {own : Nat → Prop} {lo mid hi : Nat} {blocks : List Block} {w w' : World} {c : Call}
  {a : Answer} {log : List (Call × Answer)}

theorem Does.of_run (own : Nat → Prop) (h : c.run.run w = .ok a w') : Does own c w (.ok a w') :=
  .ok (.refl _ w.mem) h (.refl _ w'.mem)

theorem Ascending.weaken (h : Ascending mid blocks hi) (hle : lo ≤ mid) :
    Ascending lo blocks hi := by
  cases blocks with
  | nil => exact Nat.le_trans hle h
  | cons b blocks => exact ⟨Nat.le_trans hle h.1, h.2⟩

theorem Ascending.bounds (h : Ascending lo blocks hi) :
    lo + total blocks ≤ hi := by
  induction blocks generalizing lo with
  | nil => exact h
  | cons b blocks ih =>
    have hrest := ih h.2
    have hfirst := h.1
    rw [total]
    omega

/-- Ascending blocks do not overlap. -/
theorem Ascending.packed (h : Ascending lo blocks hi) : Packed lo hi blocks := by
  induction blocks generalizing lo with
  | nil => exact packed_nil lo hi
  | cons b blocks ih =>
    have hrest := ih h.2
    have hfirst := h.1
    have hsum := Ascending.bounds h.2
    constructor
    · intro c hc
      rcases List.mem_cons.mp hc with rfl | hc
      · omega
      · have hin := hrest.within c hc
        omega
    · refine .cons (fun c hc i hi j hj => ?_) hrest.apart
      have hin := hrest.within c hc
      omega

theorem Grows.top_le (h : Grows w w') : top w ≤ top w' := by
  have hbase := h.base
  have hused := h.used
  unfold top
  omega

/-- What the allocator serves lies in the part of the buffer that it uses up. -/
theorem served_within {n alignment p : Nat} {f : FixedBuffer}
    (ha : w.fixed.alloc n alignment = some (p, f)) (hbase : w'.fixed.base = f.base)
    (hused : f.end_index ≤ w'.fixed.end_index) : top w ≤ p ∧ p + n ≤ top w' := by
  obtain ⟨hplace, hle, hend⟩ := alloc_spec ha
  unfold top
  omega

theorem fopen_within (filename mode : Nat) {addr : Nat}
    (h : (fopen filename mode).run w = .ok (some (.created addr)) w') :
    top w ≤ addr ∧ addr + sizeOfFile ≤ top w' := by
  cases ha : w.fixed.alloc sizeOfFile sizeOfFile with
  | none =>
    rw [fopen_full filename mode ha] at h
    cases h
  | some r =>
    obtain ⟨p, f⟩ := r
    rw [fopen_run filename mode ha] at h
    have hgrows := openInto_grows _ _ h
    rcases openInto_cases filename (.created p)
        { w with fixed := f, records := Function.update w.records (.created p) none } with
      ⟨e, m, hrun⟩ | ⟨path, m, r', w₁, _, hrun, _, hopening⟩
    · rw [hrun] at h
      cases h
    · rw [hrun] at h
      cases h
      obtain ⟨hsame, _⟩ := hopening.returned
      obtain rfl := Stream.created.inj hsame
      exact served_within ha hgrows.base hgrows.used

/-- The piece of a call lies in the part of the buffer that the call has used up. -/
theorem piece_within {b : Block} (h : c.run.run w = .ok a w') (hb : piece (c, a) = some b) :
    0 < b.len ∧ top w ≤ b.addr ∧ b.addr + b.len ≤ top w' := by
  cases c with
  | heap c =>
    obtain ⟨r, hrun, rfl⟩ := of_map_ok h
    cases r with
    | none => cases hb
    | some p =>
      obtain ⟨n, hn, rfl⟩ := Option.map_eq_some_iff.mp hb
      obtain ⟨hn, hpos⟩ := Option.filter_eq_some_iff.mp hn
      rcases Stdlib.request_taken hn hrun with ⟨_, hnone, _⟩ | ⟨q, ha, hq⟩
      · cases hnone
      · obtain rfl := Option.some.inj hq
        exact ⟨by simpa using hpos, served_within ha rfl (Nat.le_refl _)⟩
  | stdio c =>
    obtain ⟨r, hrun, rfl⟩ := of_map_ok h
    unfold piece at hb
    split at hb
    · rename_i heq
      cases heq
    · rename_i filename mode addr heq
      cases heq
      cases hb
      exact ⟨Nat.succ_pos 3, fopen_within filename mode hrun⟩
    · rename_i filename mode addr heq
      cases heq
      cases hb
      exact ⟨Nat.succ_pos 3, fopen_within filename mode hrun⟩
    · cases hb

theorem does_grows (h : Does own c w (.ok a w')) : Grows w w' := by
  cases h with
  | ok _ hrun _ =>
    have hgrows := call_grows hrun
    exact ⟨hgrows.base, hgrows.used⟩

theorem does_piece {b : Block} (h : Does own c w (.ok a w')) (hb : piece (c, a) = some b) :
    0 < b.len ∧ top w ≤ b.addr ∧ b.addr + b.len ≤ top w' := by
  cases h with
  | ok _ hrun _ =>
    have hin := piece_within hrun hb
    exact hin

theorem logged_grows (h : Logged own w log w') : Grows w w' := by
  induction h with
  | nil w => exact .refl w
  | cons hdoes _ ih => exact (does_grows hdoes).trans ih

theorem logged_ascending (h : Logged own w log w') :
    Ascending (top w) (log.filterMap piece) (top w') := by
  induction h with
  | nil w => exact Nat.le_refl (top w)
  | @cons w w₁ w' c a log hdoes _ ih =>
    cases hb : piece (c, a) with
    | none =>
      rw [List.filterMap_cons_none hb]
      exact ih.weaken (does_grows hdoes).top_le
    | some b =>
      obtain ⟨_, hle, hend⟩ := does_piece hdoes hb
      rw [List.filterMap_cons_some hb]
      exact ⟨hle, ih.weaken hend⟩

/-- No piece is empty. -/
theorem logged_pos (h : Logged own w log w') : ∀ b, b ∈ log.filterMap piece → 0 < b.len := by
  induction h with
  | nil w => exact fun _ hb => absurd hb List.not_mem_nil
  | @cons w w₁ w' c a log hdoes _ ih =>
    intro b hb
    obtain ⟨e, he, hpiece⟩ := List.mem_filterMap.mp hb
    rcases List.mem_cons.mp he with rfl | he
    · exact (does_piece hdoes hpiece).1
    · exact ih b (List.mem_filterMap.mpr ⟨e, he, hpiece⟩)

/-- Ascending blocks that are not empty have different addresses. -/
theorem Ascending.addresses (h : Ascending lo blocks hi) (hpos : ∀ b, b ∈ blocks → 0 < b.len) :
    blocks.Pairwise fun b c => b.addr < c.addr := by
  induction blocks generalizing lo with
  | nil => exact .nil
  | cons b blocks ih =>
    rw [List.forall_mem_cons] at hpos
    refine .cons (fun c hc => ?_) (ih h.2 hpos.2)
    have hin := (Ascending.packed h.2).within c hc
    omega

/-- A record that fopen has returned lies in the part of the buffer that the run has used up. -/
theorem opened_within {addr : Nat} (h : Logged own w log w') (hopened : Opened log addr) :
    top w ≤ addr ∧ addr + sizeOfFile ≤ top w' := by
  have hpiece : ⟨addr, sizeOfFile⟩ ∈ log.filterMap piece := by
    obtain ⟨filename, mode, hmem | hmem⟩ := hopened
    · exact List.mem_filterMap.mpr ⟨_, hmem, rfl⟩
    · exact List.mem_filterMap.mpr ⟨_, hmem, rfl⟩
  exact (logged_ascending h).packed.within _ hpiece

/-- What does not fit any more never fits again. -/
theorem refused_forever {n : Nat} (h : Grows w w') (hnone : (Stdlib.malloc n).run w = .ok none w) :
    (Stdlib.malloc n).run w' = .ok none w' := by
  have hused := h.used
  by_cases hfit : w.fixed.end_index + n ≤ capacity
  · rw [Stdlib.malloc_fits hfit] at hnone
    cases hnone
  · exact Stdlib.malloc_full (by omega)

end Pieces

section Contents

variable {own : Nat → Prop} {w w' : World} {c : Call} {a : Answer} {log : List (Call × Answer)}
  {p : Nat}

theorem Outside.grows (hp : Outside w p) (h : Grows w w') : Outside w' p := by
  have hle := h.top_le
  have hbase := h.base
  unfold Outside at *
  omega

/-- What an allocation changes was free. -/
theorem alloc_frames (n : Nat) (w : World) : Frames (Outside w) w (after ((alloc n).run w)) := by
  cases ha : w.fixed.alloc n 1 with
  | none =>
    rw [alloc_none ha]
    exact .refl _ w.mem
  | some r =>
    rw [alloc_some ha]
    refine ⟨fun p hp => change_outside w.mem w.fresh ?_, change_mapped w.mem r.1 n w.fresh⟩
    obtain ⟨hbase, hle, hend⟩ := alloc_spec ha
    have hused := r.2.used_le
    unfold Outside top at hp
    omega

theorem malloc_frames (n : Nat) (w : World) :
    Frames (Outside w) w (after ((Stdlib.malloc n).run w)) := by
  have hframes := alloc_frames n w
  cases ha : w.fixed.alloc n 1 with
  | none =>
    rw [Stdlib.malloc_none ha]
    exact .refl _ w.mem
  | some r =>
    rw [alloc_some ha] at hframes
    rw [Stdlib.malloc_some ha]
    exact hframes

/-- The bytes that calloc sets to zero were free. -/
theorem calloc_frames (num size : Nat) (w : World) :
    Frames (Outside w) w (after ((Stdlib.calloc num size).run w)) := by
  have hframes := alloc_frames size w
  cases ha : w.fixed.alloc size 1 with
  | none =>
    rw [Stdlib.calloc_null num ha]
    exact .refl _ w.mem
  | some r =>
    have hfresh : ∀ i, i < size → ¬ Outside w (r.1 + i) := by
      intro i hi
      obtain ⟨hbase, hle, hend⟩ := alloc_spec ha
      have hused := r.2.used_le
      unfold Outside top
      omega
    rw [alloc_some ha] at hframes
    rw [Stdlib.calloc, bind_ok (alloc_some ha)]
    exact Retains.trans hframes
      (moves_bind (onMem_frames (set_retains hfresh 0)) (fun _ => moves_pure _) _)

theorem heap_frames (c : Stdlib.Call) (w : World) :
    Frames (fun p => Outside w p ∧ ¬ (Call.heap c).Given p) w (after (c.run.run w)) := by
  cases c with
  | malloc size | aligned_alloc alignment size =>
    exact (malloc_frames size w).mono fun _ hp => hp.1
  | realloc ptr new_size =>
    rw [Stdlib.Call.run, Stdlib.realloc_eq_malloc]
    exact (malloc_frames new_size w).mono fun _ hp => hp.1
  | free ptr => exact .refl _ w.mem
  | calloc num size => exact (calloc_frames num size w).mono fun _ hp => hp.1
  | write q b =>
    have hplace : ¬ (Outside w (q + 0) ∧ ¬ (Call.heap (.write q b)).Given (q + 0)) :=
      fun h => h.2 rfl
    exact moves_bind (onMem_frames (store_retains hplace b)) (fun _ => moves_pure none) w

theorem after_map {α β : Type} (f : α → β) (x : Run World α) (w : World) :
    after ((f <$> x).run w) = after (x.run w) := by
  rw [run_map]
  cases x.run w with
  | ok a w' => rfl
  | error e w' => rfl

/-- However a call ends, it has changed no byte but those it was told to write and free ones. -/
theorem answer_frames (c : Call) (w : World) :
    Frames (fun p => Outside w p ∧ ¬ c.Given p) w (after (c.run.run w)) := by
  cases c with
  | heap c =>
    rw [Call.run, after_map]
    exact heap_frames c w
  | stdio c =>
    rw [Call.run, after_map]
    exact call_frames (fun p hp hkept => hkept.2 hp) w

/-- The same with the data of the library, which may be other than before too. -/
theorem Does.retains {r : EStateM.Result Fault World Answer} (h : Does own c w r) :
    Retains (fun p => ¬ c.Internal own w p ∧ ¬ c.Given p) w.mem (after r).mem := by
  have hframes : ∀ m, Retains (fun p => ¬ c.Internal own w p ∧ ¬ c.Given p) m
      (after (c.run.run { w with mem := m })).mem := by
    intro m
    refine (answer_frames c { w with mem := m }).mono fun p hp => ⟨?_, hp.2⟩
    by_contra hfree
    exact hp.1 (Or.inr (Or.inl hfree))
  cases h with
  | @ok m m' a w' hbefore hrun hafter =>
    have hcall := hframes m
    rw [hrun] at hcall
    exact ((hbefore.mono fun _ hp => hp.1).trans hcall).trans (hafter.mono fun _ hp => hp.1)
  | @error m m' e w' hbefore hrun hafter =>
    have hcall := hframes m
    rw [hrun] at hcall
    exact ((hbefore.mono fun _ hp => hp.1).trans hcall).trans (hafter.mono fun _ hp => hp.1)

/-- A call keeps a byte that it is not told to write, that is no data of the library and that is in
no record which the call renews. -/
theorem Does.keeps {r : EStateM.Result Fault World Answer} (h : Does own c w r) (hown : ¬ own p)
    (hp : Outside w p) (hgiven : ¬ c.Given p)
    (hrecord : ∀ addr, c.Renews (.created addr) → ¬ InRecord addr p) :
    (after r).mem.cell p = w.mem.cell p := by
  refine h.retains.same p ⟨?_, hgiven⟩
  rintro (hlib | hfree | ⟨addr, hrenews, hin⟩)
  · exact hown hlib
  · exact hfree hp
  · exact hrecord addr hrenews hin

theorem logged_isolates (h : Logged own w log w') (hown : ¬ own p) (hp : Outside w p)
    (hgiven : ∀ e ∈ log, ¬ e.1.Given p)
    (hrecord : ∀ e ∈ log, ∀ addr, e.1.Renews (.created addr) → ¬ InRecord addr p) :
    w'.mem.cell p = w.mem.cell p := by
  induction h with
  | nil w => rfl
  | cons hdoes _ ih =>
    rw [List.forall_mem_cons] at hgiven hrecord
    have hrest := ih (hp.grows (does_grows hdoes)) hgiven.2 hrecord.2
    exact hrest.trans (hdoes.keeps hown hp hgiven.1 hrecord.1)

end Contents

/-- However a run ends, a byte that was not in the free part of the buffer and is no data of the
library has changed only if a call was told to write it, and no byte has been mapped or unmapped. -/
theorem calls_fill_buffers {own : Nat → Prop} {w w' : World} {calls : List Call} {p : Nat}
    (h : Ends own w calls w') (hown : ¬ own p) (hp : Outside w p)
    (hgiven : ∀ c ∈ calls, ¬ c.Given p)
    (hrecord : ∀ c ∈ calls, ∀ addr, c.Renews (.created addr) → ¬ InRecord addr p) :
    w'.mem.cell p = w.mem.cell p ∧ ∀ q, (w'.mem.cell q).isSome = (w.mem.cell q).isSome := by
  induction h with
  | nil w => exact ⟨rfl, fun _ => rfl⟩
  | fault calls hdoes =>
    rw [List.forall_mem_cons] at hgiven hrecord
    exact ⟨hdoes.keeps hown hp hgiven.1 hrecord.1, hdoes.retains.mapped⟩
  | cons hdoes _ ih =>
    rw [List.forall_mem_cons] at hgiven hrecord
    obtain ⟨hcell, hmapped⟩ := ih (hp.grows (does_grows hdoes)) hgiven.2 hrecord.2
    constructor
    · exact hcell.trans (hdoes.keeps hown hp hgiven.1 hrecord.1)
    · exact fun q => (hmapped q).trans (hdoes.retains.mapped q)

theorem calls_fill_buffers_example :
    ∃ w', Ends (fun _ => False) (readyWorld firstMem [104, 105, 10])
        [.heap (.malloc 8), .stdio (.fgets 1 4 (some .stdin_file))] w' ∧
      (w'.mem.cell 40000 = none ∧ ∀ q, (w'.mem.cell q).isSome =
        ((readyWorld firstMem [104, 105, 10]).mem.cell q).isSome) := by
  have hrun : Ends (fun _ => False) (readyWorld firstMem [104, 105, 10])
      [.heap (.malloc 8), .stdio (.fgets 1 4 (some .stdin_file))] _ :=
    .cons (.of_run _ rfl) (.cons (.of_run _ rfl) (.nil _))
  exact ⟨_, hrun, calls_fill_buffers hrun id (Or.inr (by decide))
    (by simp [Call.Given, Stdio.Call.Fills]) (by simp [Call.Renews, Stdio.Call.Reopens])⟩

/-- In any run of calls, what the allocator sets aside for blocks and File records comes at
ascending addresses out of the buffer's free part, without overlapping, and a request that was
refused once stays refused. -/
theorem addresses_ascend {own : Nat → Prop} {w w' : World} {log : List (Call × Answer)}
    (h : Logged own w log w') :
    Ascending (top w) (log.filterMap piece) (top w') ∧
      (log.filterMap piece).Pairwise Block.Apart ∧
      (log.filterMap piece).Pairwise (fun b c => b.addr < c.addr) ∧
      w.fixed.end_index + total (log.filterMap piece) ≤ capacity ∧
      ∀ n, (Stdlib.malloc n).run w = .ok none w → (Stdlib.malloc n).run w' = .ok none w' := by
  have hasc := logged_ascending h
  have hgrows := logged_grows h
  refine ⟨hasc, hasc.packed.apart, hasc.addresses (logged_pos h), ?_,
    fun n hn => refused_forever hgrows hn⟩
  have hbounds := hasc.bounds
  have hbase := hgrows.base
  have hused := w'.fixed.used_le
  unfold top at hbounds
  omega

theorem addresses_ascend_example :
    ∃ w', Logged (fun _ => False) Stdlib.heapWorld [(.heap (.malloc 4), .block (some 1)),
        (.heap (.free (some 1)), .block none), (.heap (.malloc 2), .block (some 5))] w' ∧
      Ascending 1 [⟨1, 4⟩, ⟨5, 2⟩] (top w') := by
  have hrun : Logged (fun _ => False) Stdlib.heapWorld [(.heap (.malloc 4), .block (some 1)),
      (.heap (.free (some 1)), .block none), (.heap (.malloc 2), .block (some 5))] _ :=
    .cons (.of_run _ rfl) (.cons (.of_run _ rfl) (.cons (.of_run _ rfl) (.nil _)))
  exact ⟨_, hrun, (addresses_ascend hrun).1⟩

/-- What the allocator has set aside for a block keeps its bytes for as long as no call is told to
write into it, in a run that closes and opens anew only standard streams and those of fopen. -/
theorem blocks_isolated {own : Nat → Prop} {w w₀ w₁ w' : World} {c : Stdlib.Call} {a : Answer}
    {b : Block} {earlier later : List (Call × Answer)}
    (hown : ∀ p, own p → p < w.fixed.base ∨ w.fixed.base + capacity ≤ p)
    (hearlier : Logged own w earlier w₀) (hdoes : Does own (.heap c) w₀ (.ok a w₁))
    (hb : piece (.heap c, a) = some b) (hlater : Logged own w₁ later w')
    (hgiven : ∀ e ∈ later, ∀ i, i < b.len → ¬ e.1.Given (b.addr + i))
    (hstreams : ∀ e ∈ later, ∀ addr, e.1.Renews (.created addr) →
      Opened earlier addr ∨ Opened later addr) :
    ∀ i, i < b.len → w'.mem.cell (b.addr + i) = w₁.mem.cell (b.addr + i) := by
  intro i hi
  have hin := does_piece hdoes hb
  have hbefore := logged_grows hearlier
  have hfirst := hbefore.top_le
  have hbase := (does_grows hdoes).base.trans hbefore.base
  have hused := w₁.fixed.used_le
  have hplace : w.fixed.base ≤ b.addr ∧ b.addr + b.len ≤ w.fixed.base + capacity := by
    unfold top at hin hfirst
    omega
  refine logged_isolates hlater (fun hp => ?_) (Or.inl (by omega))
    (fun e he => hgiven e he i hi) fun e he addr hrenews => ?_
  · have hout := hown _ hp
    omega
  · rcases hstreams e he addr hrenews with hopened | hopened
    · have hrecord := opened_within hearlier hopened
      unfold InRecord
      omega
    · have hrecord := opened_within hlater hopened
      unfold InRecord
      omega

theorem blocks_isolated_example :
    ∃ w₁ w', Does (fun _ => False) (.heap (.malloc 4)) Stdlib.heapWorld (.ok (.block (some 1)) w₁) ∧
      Logged (fun _ => False) w₁
        [(.heap (.free (some 1)), .block none), (.heap (.malloc 2), .block (some 5))] w' ∧
      ∀ i, i < 4 → w'.mem.cell (1 + i) = w₁.mem.cell (1 + i) := by
  obtain ⟨w', hrun⟩ : ∃ w', Logged (fun _ => False) Stdlib.heapWorld
      [(.heap (.malloc 4), .block (some 1)), (.heap (.free (some 1)), .block none),
        (.heap (.malloc 2), .block (some 5))] w' :=
    ⟨_, .cons (.of_run _ rfl) (.cons (.of_run _ rfl) (.cons (.of_run _ rfl) (.nil _)))⟩
  cases hrun with
  | cons hmalloc hrest =>
    exact ⟨_, w', hmalloc, hrest, blocks_isolated (fun _ => False.elim) (.nil _) hmalloc rfl hrest
      (by simp [Call.Given]) (by simp [Call.Renews, Stdio.Call.Reopens])⟩

end Client
