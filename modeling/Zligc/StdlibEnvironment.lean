import Mathlib.Data.List.TakeWhile
import Zligc.CrtStart
import Zligc.Slice

/-!
# The environment that getenv searches

Start-up leaves the part of the initial stack with the environment pointers in posix_environ_raw.
getenv compares its argument with what stands before the equals sign of each entry in turn, and
gives the rest of the first entry that matches.
-/
namespace Stdlib

open Effect CellMemory Zig Crt

/-- The words that the environment pointers are, and the bytes that they lead to. -/
structure Environment where
  words : WordMem
  mem : Mem
  posix_environ_raw : Words

variable {α : Type}

/-- Run a program that only needs the bytes. -/
def onBytes (x : Run Mem α) : Run Environment α := fun s =>
  match x.run s.mem with
  | .ok a m => .ok a { s with mem := m }
  | .error e m => .error e { s with mem := m }

/-- The pointer `posix_environ_raw[i]`. -/
def pointer (i : Nat) : Run Environment Nat := fun s =>
  match s.words.cell (s.posix_environ_raw.ptr + i) with
  | some w => .ok w.toNat s
  | none => .error .segmentation s

/-- One round of the search for the end of the key, an equals sign or the terminator. -/
def lineRound (ptr line_i : Nat) : Run Mem (Turn Nat Nat) := do
  if ← ((· != 0) <$> load ptr line_i) <&&> ((· != 61) <$> load ptr line_i) then
    return .next (← add line_i 1)
  else
    return .done line_i

/-- One round of the search for the end of the entry. -/
def endRound (ptr end_i : Nat) : Run Mem (Turn Nat Nat) := do
  if (← load ptr end_i) != 0 then
    return .next (← add end_i 1)
  else
    return .done end_i

/-- One entry of std.os.getEnvPosix. The slice that it returns is given by its pointer. -/
def environRound (key : List UInt8) (i : Nat) : Run Environment (Turn Nat (Option Nat)) := do
  if i < (← get).posix_environ_raw.len then
    let ptr ← pointer i
    let line_i ← onBytes (while_ 0 (lineRound ptr))
    let this_key ← onBytes (Slice.slice ptr line_i)
    if key != this_key then
      return .next (i + 1)
    else
      let end_i ← onBytes (while_ line_i (endRound ptr))
      if line_i + 1 ≤ end_i then
        return .done (some (ptr + (line_i + 1)))
      else
        throw (.panic "index out of bounds")
  else
    return .done none

def getEnvPosix (key : List UInt8) : Run Environment (Option Nat) := while_ 0 (environRound key)

def getenv (name : Nat) : Run Environment (Option Nat) := do
  getEnvPosix (← onBytes (Slice.toSliceConst name))

/-- The part of an entry before the equals sign. -/
def keyOf (e : List UInt8) : List UInt8 := e.takeWhile (· ≠ 61)

section Scans

variable {m : Mem} {a i n : Nat} {e key value : List UInt8} {s : Environment}

theorem keyOf_append (e : List UInt8) : keyOf e ++ e.dropWhile (· ≠ 61) = e :=
  List.takeWhile_append_dropWhile

theorem keyOf_ne {c : UInt8} (h : c ∈ keyOf e) : c ≠ 61 := by
  simpa using List.mem_takeWhile_imp h

/-- Behind the key stands an equals sign or the terminator. -/
theorem behind_key (e : List UInt8) :
    (e.dropWhile (· ≠ 61)).headD 0 = 0 ∨ (e.dropWhile (· ≠ 61)).headD 0 = 61 := by
  cases hrest : e.dropWhile (· ≠ 61) with
  | nil => exact Or.inl rfl
  | cons c rest =>
    have hc := List.head?_dropWhile_not (· ≠ (61 : UInt8)) e
    rw [hrest] at hc
    exact Or.inr (by simpa using hc)

/-- An entry with an equals sign is its key, the sign and its value. -/
theorem entry_parts (h : 61 ∈ e) : ∃ value, e = keyOf e ++ 61 :: value := by
  have hsplit := keyOf_append e
  cases hrest : e.dropWhile (· ≠ 61) with
  | nil =>
    rw [hrest, List.append_nil] at hsplit
    rw [← hsplit] at h
    exact absurd rfl (keyOf_ne h)
  | cons c rest =>
    have hc := List.head?_dropWhile_not (· ≠ (61 : UInt8)) e
    rw [hrest] at hc hsplit
    obtain rfl : c = 61 := by simpa using hc
    exact ⟨rest, hsplit.symm⟩

theorem keyOf_marked (h : 61 ∉ key) (value : List UInt8) : keyOf (key ++ 61 :: value) = key := by
  have hkey : ∀ c ∈ key, decide (c ≠ 61) = true := fun c hc =>
    decide_eq_true fun hsign => h (hsign ▸ hc)
  rw [keyOf, List.takeWhile_append_of_pos hkey]
  simp

theorem keyOf_unmarked (h : 61 ∉ key) : keyOf key = key :=
  List.takeWhile_eq_self_iff.mpr fun _ hc => decide_eq_true fun hsign => h (hsign ▸ hc)

theorem onBytes_run {x : Run Mem α} {b : α} (h : x.run s.mem = .ok b s.mem) :
    (onBytes x).run s = .ok b s := by
  show (match x.run s.mem with
    | .ok a m => EStateM.Result.ok a { s with mem := m }
    | .error e m => .error e { s with mem := m }) = _
  rw [h]

/-- The search for the end of the key ends at its end. -/
theorem line_run (h : StringAt m a e) :
    (while_ 0 (lineRound a)).run m = .ok (keyOf e).length m := by
  rw [← keyOf_append e] at h
  have hlength : (keyOf e).length < 0x10000000000000000 := by
    have hbound := h.bounds.2
    rw [List.length_append] at hbound
    omega
  refine loop_result (fun i => i) (fun _ => m) rfl rfl hlength ?_ ?_
  · intro i hi
    have hcell : m.cell (a + i) = some (keyOf e)[i] := h.bytes.left.left.cell hi
    have hmem : (keyOf e)[i] ∈ keyOf e := List.getElem_mem hi
    have hnul : (keyOf e)[i] ≠ 0 := fun h0 => h.nonzero (List.mem_append_left _ (h0 ▸ hmem))
    have hsign := keyOf_ne hmem
    have hnext : i + 1 < 0x10000000000000000 := by omega
    simp [lineRound, hcell, hnul, hsign, hnext]
  · have hcell := h.parted
    rcases behind_key e with hend | hend <;> rw [hend] at hcell <;> simp [lineRound, hcell]

/-- The search for the end of the entry ends at its terminator. -/
theorem end_run (h : StringAt m a e) (hi : i ≤ e.length) :
    (while_ i (endRound a)).run m = .ok e.length m := by
  have hbound := h.bounds.2
  refine loop_result (fun j => i + j) (fun _ => m) rfl rfl (k := e.length - i) (by omega) ?_ ?_
  · intro j hj
    obtain ⟨c, hcell, _, hne⟩ := h.char (i := i + j) (by omega)
    have hnext : i + j + 1 < 0x10000000000000000 := by omega
    have hadd : (add (i + j) 1 : Run Mem Nat).run m = .ok (i + (j + 1)) m := add_run m hnext
    simp [endRound, hcell, hne, hadd]
  · have hend : i + (e.length - i) = e.length := by omega
    have hcell := h.terminator
    simp [endRound, hend, hcell]

end Scans

/-- The entries that the environment pointers lead to. -/
structure Environment.Lists (s : Environment) (env : List (UInt64 × List UInt8)) : Prop where
  pointers : Holds s.words s.posix_environ_raw.ptr (env.map Prod.fst)
  count : s.posix_environ_raw.len = env.length
  strings : ∀ e ∈ env, StringAt s.mem e.1.toNat e.2

section Search

variable {s : Environment} {env before rest : List (UInt64 × List UInt8)} {e : UInt64 × List UInt8}
  {key value : List UInt8} {name ptr i : Nat}

theorem Environment.Lists.length_lt (h : s.Lists env) : env.length < 0x10000000000000000 := by
  have hmap := h.pointers.mapped.length_lt (by decide)
  rw [List.length_map] at hmap
  omega

/-- What a round does up to the comparison of the keys. -/
theorem environRound_run (h : s.Lists env) (hi : env[i]? = some e) (key : List UInt8) :
    (environRound key i).run s =
      (do
        if key != keyOf e.2 then
          return .next (i + 1)
        else
          let end_i ← onBytes (while_ (keyOf e.2).length (endRound e.1.toNat))
          if (keyOf e.2).length + 1 ≤ end_i then
            return .done (some (e.1.toNat + ((keyOf e.2).length + 1)))
          else
            throw (.panic "index out of bounds") : Run Environment (Turn Nat (Option Nat))).run s := by
  obtain ⟨hlt, rfl⟩ := List.getElem?_eq_some_iff.mp hi
  have hstring := h.strings env[i] (List.getElem_mem hlt)
  have hcell : s.words.cell (s.posix_environ_raw.ptr + i) = some env[i].1 := by
    have hword := h.pointers.cell (i := i) (by simpa using hlt)
    simpa using hword
  have hpointer : (pointer i).run s = .ok env[i].1.toNat s := by
    simp [pointer, EStateM.run, hcell]
  have hkey : Holds s.mem env[i].1.toNat (keyOf env[i].2) := by
    have hbytes := hstring.bytes.left
    rw [← keyOf_append env[i].2] at hbytes
    exact hbytes.left
  have hcount := h.count
  rw [environRound, bind_ok (EStateM.run_get s), if_pos (by omega), bind_ok hpointer,
    bind_ok (onBytes_run (line_run hstring)), bind_ok (onBytes_run (Slice.slice_run hkey))]

theorem environRound_other (h : s.Lists env) (hi : env[i]? = some e) (hkey : keyOf e.2 ≠ key) :
    (environRound key i).run s = .ok (.next (i + 1)) s := by
  rw [environRound_run h hi, if_pos (by simpa using Ne.symm hkey)]
  rfl

theorem environRound_marked (h : s.Lists env) {p : UInt64}
    (hi : env[i]? = some (p, key ++ 61 :: value)) (hkey : 61 ∉ key) :
    (environRound key i).run s = .ok (.done (some (p.toNat + (key.length + 1)))) s := by
  have hlead : keyOf (key ++ 61 :: value) = key := keyOf_marked hkey value
  have hstring := h.strings _ (List.mem_of_getElem? hi)
  have hend : (while_ key.length (endRound p.toNat)).run s.mem =
      .ok (key ++ 61 :: value).length s.mem := end_run hstring (by simp)
  rw [environRound_run h hi, hlead, if_neg (by simp), bind_ok (onBytes_run hend),
    if_pos (by simp)]
  rfl

theorem environRound_unmarked (h : s.Lists env) {p : UInt64} (hi : env[i]? = some (p, key))
    (hkey : 61 ∉ key) :
    (environRound key i).run s = .error (.panic "index out of bounds") s := by
  have hlead : keyOf key = key := keyOf_unmarked hkey
  have hstring := h.strings _ (List.mem_of_getElem? hi)
  have hend : (while_ key.length (endRound p.toNat)).run s.mem = .ok key.length s.mem :=
    end_run hstring (Nat.le_refl _)
  rw [environRound_run h hi, hlead, if_neg (by simp), bind_ok (onBytes_run hend),
    if_neg (by omega)]
  rfl

/-- The entries before the first one with the key are passed over. -/
theorem environRound_before (h : s.Lists (before ++ rest))
    (hother : ∀ e ∈ before, keyOf e.2 ≠ key) (hi : i < before.length) :
    (environRound key i).run s = .ok (.next (i + 1)) s := by
  have hentry : (before ++ rest)[i]? = some before[i] := by
    rw [List.getElem?_append_left hi, List.getElem?_eq_getElem hi]
  exact environRound_other h hentry (hother _ (List.getElem_mem hi))

theorem getenv_as_search (hname : StringAt s.mem name key) :
    (getenv name).run s = (getEnvPosix key).run s := by
  rw [getenv, bind_ok (onBytes_run (Slice.toSliceConst_run hname))]

/-- The first entry with the key decides. -/
theorem getenv_found (h : s.Lists (before ++ e :: rest)) (hname : StringAt s.mem name key)
    (hother : ∀ e ∈ before, keyOf e.2 ≠ key) (he : e.2 = key ++ 61 :: value) (hkey : 61 ∉ key) :
    (getenv name).run s = .ok (some (e.1.toNat + (key.length + 1))) s := by
  have hlength := h.length_lt
  rw [List.length_append] at hlength
  have hlast : (before ++ e :: rest)[before.length]? = some (e.1, key ++ 61 :: value) := by
    rw [List.getElem?_append_right (Nat.le_refl _), Nat.sub_self, ← he]
    rfl
  rw [getenv_as_search hname]
  exact loop_result (fun i => i) (fun _ => s) rfl rfl (k := before.length) (by omega)
    (fun i hi => environRound_before h hother hi) (environRound_marked h hlast hkey)

theorem getenv_fault (h : s.Lists (before ++ e :: rest)) (hname : StringAt s.mem name key)
    (hother : ∀ e ∈ before, keyOf e.2 ≠ key) (he : e.2 = key) (hkey : 61 ∉ key) :
    (getenv name).run s = .error (.panic "index out of bounds") s := by
  have hlength := h.length_lt
  rw [List.length_append] at hlength
  have hlast : (before ++ e :: rest)[before.length]? = some (e.1, key) := by
    rw [List.getElem?_append_right (Nat.le_refl _), Nat.sub_self, ← he]
    rfl
  rw [getenv_as_search hname]
  exact loop_fault (fun i => i) (fun _ => s) rfl rfl (k := before.length) (by omega)
    (fun i hi => environRound_before h hother hi) (environRound_unmarked h hlast hkey)

theorem getenv_missing (h : s.Lists env) (hname : StringAt s.mem name key)
    (hother : ∀ e ∈ env, keyOf e.2 ≠ key) : (getenv name).run s = .ok none s := by
  have hlast : (environRound key env.length).run s = .ok (.done none) s := by
    have hcount := h.count
    rw [environRound, bind_ok (EStateM.run_get s), if_neg (by omega)]
    rfl
  rw [← List.append_nil env] at h
  rw [getenv_as_search hname]
  have hlength := h.length_lt
  rw [List.append_nil] at hlength
  exact loop_result (fun i => i) (fun _ => s) rfl rfl hlength
    (fun i hi => environRound_before h hother hi) hlast

end Search

/-- The first entry with the key. -/
def entryOf (key : List UInt8) (env : List (UInt64 × List UInt8)) : Option (UInt64 × List UInt8) :=
  env.find? fun e => keyOf e.2 = key

/-- What getenv does with the name of a key: it gives the value of the first entry with the key and
null if there is none. An entry that is only a key cannot be told from one with a value before its
value is sliced, which then ends the process. -/
structure Searched (name : Nat) (key : List UInt8) (env : List (UInt64 × List UInt8))
    (s : Environment) : Prop where
  missing : entryOf key env = none → (getenv name).run s = .ok none s
  found : ∀ e, entryOf key env = some e → 61 ∈ e.2 → ∃ value, e.2 = key ++ 61 :: value ∧
    (getenv name).run s = .ok (some (e.1.toNat + (key.length + 1))) s ∧
    StringAt s.mem (e.1.toNat + (key.length + 1)) value
  unmarked : ∀ e, entryOf key env = some e → 61 ∉ e.2 →
    (getenv name).run s = .error (.panic "index out of bounds") s

section Start

variable {len name : Nat} {s : Environment} {key : List UInt8}
  {env : List (UInt64 × List UInt8)} {e : UInt64 × List UInt8}

theorem entryOf_parts (h : entryOf key env = some e) :
    keyOf e.2 = key ∧ ∃ before rest, env = before ++ e :: rest ∧
      ∀ d ∈ before, keyOf d.2 ≠ key := by
  obtain ⟨hkey, before, rest, henv, hother⟩ := List.find?_eq_some_iff_append.mp h
  exact ⟨by simpa using hkey, before, rest, henv, fun d hd => by simpa using hother d hd⟩

theorem getenv_searched (h : s.Lists env) (hname : StringAt s.mem name key) :
    Searched name key env s := by
  constructor
  · intro hnone
    refine getenv_missing h hname fun e he => ?_
    simpa using List.find?_eq_none.mp hnone e he
  · intro e hfirst hsign
    obtain ⟨hkey, before, rest, rfl, hother⟩ := entryOf_parts hfirst
    obtain ⟨value, hvalue⟩ := entry_parts hsign
    rw [hkey] at hvalue
    have hplain : 61 ∉ key := fun hmem => keyOf_ne (hkey ▸ hmem) rfl
    have hstring := h.strings e (List.mem_append_right before (.head rest))
    rw [hvalue, List.append_cons] at hstring
    have hvalues := hstring.right
    rw [List.length_append, List.length_singleton] at hvalues
    exact ⟨value, hvalue, getenv_found h hname hother hvalue hplain, hvalues⟩
  · intro e hfirst hsign
    obtain ⟨hkey, before, rest, rfl, hother⟩ := entryOf_parts hfirst
    rw [keyOf_unmarked hsign] at hkey
    rw [hkey] at hsign
    exact getenv_fault h hname hother hkey hsign

/-- Whatever start-up finds on the stack, getenv in the main that it calls searches the entries that
the stack points to: main runs in the process whose environment is searched. -/
theorem getenv_after_start {s : Startup len} {args : List UInt64} {aux : List (UInt64 × UInt64)}
    {mem : Mem} (hstack : Holds s.stack s.argc_ptr (layout args (env.map Prod.fst) aux))
    (haux : ∀ pair ∈ aux, pair.1 ≠ 0) (hlen : AT_PAGESZ < len)
    (hpage : KeyedTable.LastWith (entries aux) AT_PAGESZ page_size)
    (hstrings : ∀ e ∈ env, StringAt mem e.1.toNat e.2) (hname : StringAt mem name key) :
    ∃ t argv envp,
      (∀ main, (posixCallMainAndExit main).run s =
        (onProcess (exitWithMain main args.length argv envp)).run t) ∧
      (∀ main, (posixCallMainAndExit main).run s =
        concluded t (main.run (passed args.length argv envp t.process))) ∧
      Searched name key env
        ⟨t.stack, mem, (passed args.length argv envp t.process).posix_environ_raw⟩ := by
  have henv : 0 ∉ env.map Prod.fst := by
    intro hnull
    obtain ⟨e, he, hzero⟩ := List.mem_map.mp hnull
    have hbounds := (hstrings e he).bounds.1
    rw [hzero] at hbounds
    exact absurd hbounds (Nat.lt_irrefl 0)
  obtain ⟨t, hadv, hrun⟩ := scans_run hstack henv haux hlen hpage
  obtain ⟨_, _, henvp, _⟩ := layout_sections hstack henv
  refine ⟨t, _, _, hrun, fun main => ?_, getenv_searched ⟨?_, ?_, hstrings⟩ hname⟩
  · rw [hrun main]
    exact exitWithMain_concluded main _ _ _ t
  · rw [hadv.stack]
    exact henvp.bytes.left
  · exact List.length_map _

/-- The entries A=1 and B=2 and the name B. -/
def environMem : Mem :=
  image 72 [65, 61, 49, 0, 66, 61, 50, 0, 66, 0] (by decide) (by decide)

def environStack : WordMem :=
  image 40 (layout [80] [72, 76] [(6, 4096)]) (by decide) (by decide)

theorem getenv_after_start_example :
    ∃ t argv envp,
      (∀ main, (posixCallMainAndExit main).run
          ⟨environStack, 40, Vector.replicate 38 0, started ⟨0, 0⟩ ⟨0, 0⟩, []⟩ =
        (onProcess (exitWithMain main 1 argv envp)).run t) ∧
      (∀ main, (posixCallMainAndExit main).run
          ⟨environStack, 40, Vector.replicate 38 0, started ⟨0, 0⟩ ⟨0, 0⟩, []⟩ =
        concluded t (main.run (passed 1 argv envp t.process))) ∧
      Searched 80 [66] [(72, [65, 61, 49]), (76, [66, 61, 50])]
        ⟨t.stack, environMem, (passed 1 argv envp t.process).posix_environ_raw⟩ := by
  have hfirst : StringAt environMem 72 [65, 61, 49] := ⟨by decide, by decide⟩
  have hsecond : StringAt environMem 76 [66, 61, 50] := ⟨by decide, by decide⟩
  have hstrings : ∀ e ∈ [((72 : UInt64), [(65 : UInt8), 61, 49]), (76, [66, 61, 50])],
      StringAt environMem e.1.toNat e.2 :=
    List.forall_mem_cons.mpr ⟨hfirst, List.forall_mem_singleton.mpr hsecond⟩
  exact @getenv_after_start _ _ _ _ _ [80] [(6, 4096)] _ (by decide) (by simp) (by decide)
    ⟨[], [], rfl, fun _ hnone => absurd hnone List.not_mem_nil⟩ hstrings ⟨by decide, by decide⟩

end Start

end Stdlib
