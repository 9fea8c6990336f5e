import Zligc.Crt
import Zligc.KeyedTable

/-!
# Process start-up in crt.zig

The initial stack has the argument count, the arguments, a null, the environment, a null, and
pairs of a key and a value up to the key 0. Start-up scans it section by section and calls main
with what it found. The stack is a memory of words, in which a pointer is the number of a word.
-/
namespace Crt

open Effect CellMemory Zig Stdlib KeyedTable

/-- Words at 64-bit byte addresses. -/
abbrev WordMem := Memory UInt64 0x2000000000000000

/-- The words that were read are kept for the proofs. -/
structure Startup (len : Nat) where
  stack : WordMem
  argc_ptr : Nat
  linux_aux_raw : Vector UInt64 len
  process : Process
  touched : List Nat

def AT_PAGESZ : Nat := 6

def page_size : UInt64 := 4096

variable {len : Nat} {α : Type}

/-- The word `p[i]`. -/
def word (p i : Nat) : Run (Startup len) UInt64 := fun s =>
  match s.stack.cell (p + i) with
  | some w => .ok w { s with touched := s.touched ++ [p + i] }
  | none => .error .segmentation { s with touched := s.touched ++ [p + i] }

/-- `std.os.linux_aux_raw[key] = value` -/
def setAux (key value : UInt64) : Run (Startup len) Unit := do
  let s ← get
  if h : key.toNat < len then
    set { s with linux_aux_raw := s.linux_aux_raw.set key.toNat value h }
  else
    throw (.panic "index out of bounds")

def assert (ok : Bool) : Run (Startup len) Unit :=
  if ok then pure () else throw .reachedUnreachable

def onProcess (x : Run Process α) : Run (Startup len) α := fun s =>
  match x.run s.process with
  | .ok a process => .ok a { s with process }
  | .error e process => .error e { s with process }

def envRound (envp_optional envp_count : Nat) : Run (Startup len) (Turn Nat Nat) := do
  if (← word envp_optional envp_count) != 0 then
    return .next (← add envp_count 1)
  else
    return .done envp_count

def auxRound (auxv i : Nat) : Run (Startup len) (Turn Nat Unit) := do
  if (← word auxv i) != 0 then
    if (← word auxv i).toNat < len then
      setAux (← word auxv i) (← word auxv (← add i 1))
    return .next (← add i 2)
  else
    return .done ()

def posixCallMainAndExit (main : Run Process Int32) : Run (Startup len) UInt8 := do
  let argc_ptr := (← get).argc_ptr
  let argc ← word argc_ptr 0
  let argv := argc_ptr + 1
  let envp_optional := argv + argc.toNat + 1
  let envp_count ← while_ 0 (envRound envp_optional)
  let auxv := envp_optional + envp_count + 1
  let _ : Unit ← while_ 0 (auxRound auxv)
  assert ((← get).linux_aux_raw[AT_PAGESZ]? == some page_size)
  onProcess (exitWithMain main argc.toNat argv ⟨envp_optional, envp_count⟩)

/-- The words of auxiliary pairs. -/
def auxWords (aux : List (UInt64 × UInt64)) : List UInt64 :=
  aux.flatMap fun pair => [pair.1, pair.2]

/-- The initial stack up to the key that ends the auxiliary pairs. -/
def layout (args env : List UInt64) (aux : List (UInt64 × UInt64)) : List UInt64 :=
  UInt64.ofNat args.length :: (args ++ 0 :: (env ++ 0 :: (auxWords aux ++ [0])))

/-- The auxiliary pairs as entries of a table. -/
def entries (aux : List (UInt64 × UInt64)) : List (Nat × UInt64) :=
  aux.map fun pair => (pair.1.toNat, pair.2)

/-- From `s` to `t` words were read, all of them from `first` on and before `last`, and the table
became another one. -/
structure Advanced (first last : Nat) (table : Vector UInt64 len) (s t : Startup len) : Prop where
  state : t = { s with linux_aux_raw := table, touched := t.touched }
  reads : ∀ j, j ∈ t.touched → j ∈ s.touched ∨ (first ≤ j ∧ j < last)

section Scans

variable {first last p i n : Nat} {table table' : Vector UInt64 len} {s t u : Startup len}
  {w key : UInt64}

theorem Advanced.trans (h : Advanced first last table s t) (h' : Advanced first last table' t u) :
    Advanced first last table' s u := by
  constructor
  · rw [h'.state, h.state]
  · intro j hj
    rcases h'.reads j hj with ht | hin
    · exact h.reads j ht
    · exact Or.inr hin

theorem Advanced.stack (h : Advanced first last table s t) : t.stack = s.stack := by
  rw [h.state]

theorem Advanced.table_eq (h : Advanced first last table s t) : t.linux_aux_raw = table := by
  rw [h.state]

/-- A read of a word in the range. -/
theorem word_run (h : s.stack.cell (p + i) = some w) (hin : first ≤ p + i ∧ p + i < last) :
    ∃ t, (word p i).run s = .ok w t ∧ Advanced first last s.linux_aux_raw s t := by
  refine ⟨{ s with touched := s.touched ++ [p + i] }, ?_, rfl, fun j hj => ?_⟩
  · simp [word, EStateM.run, h]
  · rw [List.mem_append, List.mem_singleton] at hj
    rcases hj with hj | rfl
    · exact Or.inl hj
    · exact Or.inr hin

/-- The scan of the environment from one of its pointers on. -/
theorem env_run {rest : List UInt64} (hs : StringAt s.stack (p + i) rest) (hn : rest.length < n)
    (hin : first ≤ p + i ∧ p + i + rest.length < last) :
    ∃ t, (loop .exhausted (envRound p) n i).run s = .ok (i + rest.length) t ∧
      Advanced first last s.linux_aux_raw s t := by
  obtain ⟨n, rfl⟩ : ∃ k, n = k + 1 := ⟨n - 1, by omega⟩
  induction rest generalizing i n s with
  | nil =>
    obtain ⟨t, hword, hadv⟩ := word_run (p := p) (i := i) hs.terminator hin
    refine ⟨t, loop_done (Nat.zero_lt_succ n) ?_, hadv⟩
    rw [envRound, bind_ok hword]
    rfl
  | cons e rest ih =>
    obtain ⟨hcell, hne, hrest⟩ := hs.next
    rw [List.length_cons] at hn hin
    have hhere : first ≤ p + i ∧ p + i < last := by omega
    obtain ⟨t, hword, hadv⟩ := word_run (p := p) (i := i) hcell hhere
    have hbound := hs.bounds.2
    have hround : (envRound p i).run s = .ok (.next (i + 1)) t := by
      rw [envRound, bind_ok hword, if_pos (by simpa using hne), bind_ok (add_run t (by omega))]
      rfl
    obtain ⟨n, rfl⟩ : ∃ k, n = k + 1 := ⟨n - 1, by omega⟩
    rw [← hadv.stack] at hrest
    obtain ⟨u, hloop, hadv'⟩ := ih (i := i + 1) hrest (by omega) n (by omega)
    rw [hadv.table_eq] at hadv'
    refine ⟨u, ?_, hadv.trans hadv'⟩
    rw [loop_next hround, hloop, List.length_cons, Nat.add_assoc, Nat.add_comm 1]

/-- The store of a value under a key that the table has. -/
theorem setAux_run (h : key.toNat < len) (value : UInt64) (s : Startup len) :
    (setAux key value).run s =
      .ok () { s with linux_aux_raw := put s.linux_aux_raw (key.toNat, value) } := by
  simp [setAux, put, h]

theorem Advanced.stored (h : Advanced first last table s t) (table' : Vector UInt64 len) :
    Advanced first last table' s { t with linux_aux_raw := table' } := by
  refine ⟨?_, h.reads⟩
  rw [h.state]

/-- One round over the auxiliary pairs, which puts the pair into the table if that has the key. -/
theorem auxRound_run {value : UInt64} (hkey : s.stack.cell (p + i) = some key) (hne : key ≠ 0)
    (hvalue : s.stack.cell (p + (i + 1)) = some value) (hi : i + 2 < 0x10000000000000000)
    (hin : first ≤ p + i ∧ p + (i + 1) < last) :
    ∃ t, (auxRound p i).run s = .ok (.next (i + 2)) t ∧
      Advanced first last (put s.linux_aux_raw (key.toNat, value)) s t := by
  have hhere : first ≤ p + i ∧ p + i < last := by omega
  have hnext : first ≤ p + (i + 1) ∧ p + (i + 1) < last := by omega
  obtain ⟨s₁, hword₁, hadv₁⟩ := word_run (p := p) (i := i) hkey hhere
  rw [← hadv₁.stack] at hkey hvalue
  obtain ⟨s₂, hword₂, hadv₂⟩ := word_run (p := p) (i := i) hkey hhere
  rw [← hadv₂.stack] at hkey hvalue
  have hadv₁₂ := hadv₁.trans hadv₂
  by_cases hlen : key.toNat < len
  · obtain ⟨s₃, hword₃, hadv₃⟩ := word_run (p := p) (i := i) hkey hhere
    rw [← hadv₃.stack] at hvalue
    obtain ⟨s₄, hword₄, hadv₄⟩ := word_run (p := p) (i := i + 1) hvalue hnext
    have hadv := hadv₁₂.trans (hadv₃.trans hadv₄)
    have htable : s₄.linux_aux_raw = s.linux_aux_raw := by
      rw [hadv₄.table_eq, hadv₃.table_eq, hadv₂.table_eq, hadv₁.table_eq]
    refine ⟨_, ?_, hadv.stored _⟩
    rw [auxRound, bind_ok hword₁, if_pos (by simpa using hne), bind_ok hword₂, if_pos hlen,
      bind_ok hword₃, bind_ok (add_run s₃ (by omega)), bind_ok hword₄,
      bind_ok (setAux_run hlen value s₄), bind_ok (add_run _ hi), htable]
    rfl
  · refine ⟨s₂, ?_, ?_⟩
    · rw [auxRound, bind_ok hword₁, if_pos (by simpa using hne), bind_ok hword₂, if_neg hlen]
      exact (bind_ok (add_run s₂ hi) _).trans rfl
    · rw [put, dif_neg hlen, ← hadv₁.table_eq]
      exact hadv₁₂

/-- The scan of the auxiliary pairs from one of them on. -/
theorem aux_run {aux : List (UInt64 × UInt64)} (h : Holds s.stack (p + i) (auxWords aux ++ [0]))
    (haux : ∀ pair ∈ aux, pair.1 ≠ 0) (hn : aux.length < n)
    (hin : first ≤ p + i ∧ p + i + (auxWords aux).length < last) :
    ∃ t, (loop .exhausted (auxRound p) n i).run s = .ok () t ∧
      Advanced first last (fill s.linux_aux_raw (entries aux)) s t := by
  obtain ⟨n, rfl⟩ : ∃ k, n = k + 1 := ⟨n - 1, by omega⟩
  induction aux generalizing i n s with
  | nil =>
    obtain ⟨t, hword, hadv⟩ := word_run (p := p) (i := i) (h 0 Nat.one_pos) hin
    refine ⟨t, loop_done (Nat.zero_lt_succ n) ?_, hadv⟩
    rw [auxRound, bind_ok hword]
    rfl
  | cons pair aux ih =>
    have hwords : auxWords (pair :: aux) = pair.1 :: pair.2 :: auxWords aux := rfl
    rw [hwords] at h hin
    rw [List.forall_mem_cons] at haux
    rw [List.length_cons] at hn
    simp only [List.length_cons] at hin
    have hkey : s.stack.cell (p + i) = some pair.1 := h 0 (Nat.zero_lt_succ _)
    have hvalue : s.stack.cell (p + (i + 1)) = some pair.2 :=
      h 1 (Nat.succ_lt_succ (Nat.zero_lt_succ _))
    have hrest : Holds s.stack (p + (i + 2)) (auxWords aux ++ [0]) :=
      h.drop (i := 2) (by simp)
    have hbound := (hrest.mapped.bounds (by simp)).2
    have hhere : first ≤ p + i ∧ p + (i + 1) < last := by omega
    obtain ⟨t, hround, hadv⟩ := auxRound_run hkey haux.1 hvalue (by omega) hhere
    obtain ⟨n, rfl⟩ : ∃ k, n = k + 1 := ⟨n - 1, by omega⟩
    rw [← hadv.stack] at hrest
    obtain ⟨u, hloop, hadv'⟩ := ih (i := i + 2) hrest haux.2 (by omega) n (by omega)
    rw [hadv.table_eq] at hadv'
    exact ⟨u, by rw [loop_next hround, hloop], hadv.trans hadv'⟩

end Scans

/-- Where the sections of the stack begin. -/
theorem layout_sections {m : WordMem} {p : Nat} {args env : List UInt64}
    {aux : List (UInt64 × UInt64)} (h : Holds m p (layout args env aux)) (henv : 0 ∉ env) :
    m.cell p = some (UInt64.ofNat args.length) ∧ Holds m (p + 1) args ∧
      StringAt m (p + 1 + args.length + 1) env ∧
      Holds m (p + 1 + args.length + 1 + env.length + 1) (auxWords aux ++ [0]) := by
  have hargs : Holds m (p + 1) (args ++ 0 :: (env ++ 0 :: (auxWords aux ++ [0]))) :=
    h.drop (i := 1) (by simp [layout])
  have henvp : Holds m (p + 1 + args.length + 1) (env ++ 0 :: (auxWords aux ++ [0])) :=
    hargs.right.drop (i := 1) (by simp)
  have hauxv : Holds m (p + 1 + args.length + 1 + env.length + 1) (auxWords aux ++ [0]) :=
    henvp.right.drop (i := 1) (by simp)
  refine ⟨h 0 (Nat.zero_lt_succ _), hargs.left, ⟨?_, henv⟩, hauxv⟩
  rw [List.append_cons] at henvp
  exact henvp.left

theorem onProcess_run {x : Run Process α} {a : α} {process : Process} {s : Startup len}
    (h : x.run s.process = .ok a process) : (onProcess x).run s = .ok a { s with process } := by
  show (match x.run s.process with
    | .ok a process => EStateM.Result.ok a { s with process }
    | .error e process => .error e { s with process }) = _
  rw [h]

theorem onProcess_fault {x : Run Process α} {e : Fault} {process : Process} {s : Startup len}
    (h : x.run s.process = .error e process) :
    (onProcess x).run s = .error e { s with process } := by
  show (match x.run s.process with
    | .ok a process => EStateM.Result.ok a { s with process }
    | .error e process => .error e { s with process }) = _
  rw [h]

theorem assert_run {ok : Bool} (h : ok = true) (s : Startup len) : (assert ok).run s = .ok () s := by
  rw [assert, if_pos h]
  rfl

theorem auxWords_length (aux : List (UInt64 × UInt64)) :
    (auxWords aux).length = 2 * aux.length := by
  induction aux with
  | nil => rfl
  | cons pair aux ih =>
    show (auxWords aux).length + 1 + 1 = _
    rw [ih, List.length_cons]
    omega

/-- The scans lead to the call of main. -/
theorem scans_run {s : Startup len} {args env : List UInt64} {aux : List (UInt64 × UInt64)}
    (hstack : Holds s.stack s.argc_ptr (layout args env aux)) (henv : 0 ∉ env)
    (haux : ∀ pair ∈ aux, pair.1 ≠ 0) (hlen : AT_PAGESZ < len)
    (hpage : LastWith (entries aux) AT_PAGESZ page_size) :
    ∃ t, Advanced s.argc_ptr (s.argc_ptr + (layout args env aux).length)
        (fill s.linux_aux_raw (entries aux)) s t ∧
      ∀ main, (posixCallMainAndExit main).run s =
        (onProcess (exitWithMain main args.length (s.argc_ptr + 1)
          ⟨s.argc_ptr + 1 + args.length + 1, env.length⟩)).run t := by
  obtain ⟨hargc, _, henvp, hauxv⟩ := layout_sections hstack henv
  have hbound := (hstack.mapped.bounds (Nat.zero_lt_succ _)).2
  have hlength : (layout args env aux).length =
      args.length + env.length + (auxWords aux).length + 4 := by
    simp only [layout, List.length_cons, List.length_append, List.length_nil]
    omega
  have hpairs := auxWords_length aux
  have hcount : (UInt64.ofNat args.length).toNat = args.length :=
    UInt64.toNat_ofNat_of_lt' (by show _ < 0x10000000000000000; omega)
  generalize hlast : s.argc_ptr + (layout args env aux).length = last at hbound
  have hin₁ : s.argc_ptr ≤ s.argc_ptr + 0 ∧ s.argc_ptr + 0 < last := by omega
  obtain ⟨s₁, hword, hadv₁⟩ := word_run hargc hin₁
  rw [← hadv₁.stack] at henvp hauxv
  have hin₂ : s.argc_ptr ≤ s.argc_ptr + 1 + args.length + 1 + 0 ∧
      s.argc_ptr + 1 + args.length + 1 + 0 + env.length < last := by omega
  obtain ⟨s₂, henvs, hadv₂⟩ := env_run (p := s.argc_ptr + 1 + args.length + 1) (i := 0)
    (n := 0x10000000000000000) henvp (by omega) hin₂
  rw [← hadv₂.stack] at hauxv
  have hin₃ : s.argc_ptr ≤ s.argc_ptr + 1 + args.length + 1 + env.length + 1 + 0 ∧
      s.argc_ptr + 1 + args.length + 1 + env.length + 1 + 0 + (auxWords aux).length < last := by
    omega
  obtain ⟨t, hauxs, hadv₃⟩ := aux_run (p := s.argc_ptr + 1 + args.length + 1 + env.length + 1)
    (i := 0) (n := 0x10000000000000000) hauxv haux (by omega) hin₃
  rw [Nat.zero_add] at henvs
  rw [hadv₂.table_eq, hadv₁.table_eq] at hadv₃
  have hassert : (t.linux_aux_raw[AT_PAGESZ]? == some page_size) = true := by
    rw [Vector.getElem?_eq_getElem hlen, hadv₃.table_eq, fill_last hlen hpage]
    rfl
  refine ⟨t, hadv₁.trans (hadv₂.trans hadv₃), fun main => ?_⟩
  rw [posixCallMainAndExit, bind_ok (EStateM.run_get s), bind_ok hword, hcount]
  refine (bind_ok henvs _).trans ((bind_ok hauxs _).trans ?_)
  rw [bind_ok (EStateM.run_get t), bind_ok (assert_run hassert t)]

/-- How the process of `t` ends once main has run: main's fault ends it, a status that is no byte
fails the cast, and any other status is the status of the process. -/
def concluded (t : Startup len) :
    EStateM.Result Fault Process Int32 → EStateM.Result Fault (Startup len) UInt8
  | .ok n process =>
    if 0 ≤ n.toInt ∧ n.toInt < 256 then
      .ok (UInt8.ofNat n.toInt.toNat) { t with process }
    else
      .error .integerCast { t with process }
  | .error e process => .error e { t with process }

theorem exitWithMain_concluded (main : Run Process Int32) (argc argv : Nat) (envp : Words)
    (t : Startup len) :
    (onProcess (exitWithMain main argc argv envp)).run t =
      concluded t (main.run { t.process with raw := ⟨argv, argc⟩, posix_environ_raw := envp }) := by
  cases hmain : main.run { t.process with raw := ⟨argv, argc⟩, posix_environ_raw := envp } with
  | ok n process =>
    have hexit := exitWithMain_run hmain
    by_cases hn : 0 ≤ n.toInt ∧ n.toInt < 256
    · rw [castU8_run process hn] at hexit
      rw [onProcess_run hexit, concluded, if_pos hn]
    · rw [castU8_fault process hn] at hexit
      rw [onProcess_fault hexit, concluded, if_neg hn]
  | error e process =>
    have hcall : (callMainWithArgs main argc argv envp).run t.process = .error e process := by
      rw [callMainWithArgs, bind_ok (EStateM.run_modify _ _)]
      exact bind_error hmain _
    exact onProcess_fault (bind_error hcall _)

/-- What start-up has found on the stack of `s` when it calls main in `t`. -/
structure Parsed (args env : List UInt64) (aux : List (UInt64 × UInt64)) (s t : Startup len)
    (argv : Nat) (envp : Words) : Prop where
  stack : t.stack = s.stack
  process : t.process = s.process
  arguments : Holds s.stack argv args
  environment : Holds s.stack envp.ptr env ∧ envp.len = env.length
  recorded : ∀ k (hk : k < len) v, LastWith (entries aux) k v → t.linux_aux_raw[k] = v
  kept : ∀ k (hk : k < len), (∀ pair ∈ entries aux, pair.1 ≠ k) →
    t.linux_aux_raw[k] = s.linux_aux_raw[k]
  reads : ∀ j, j ∈ t.touched → j ∈ s.touched ∨
    (s.argc_ptr ≤ j ∧ j < s.argc_ptr + (layout args env aux).length)

/-- Start-up finds the sections of the stack and reads nothing behind the key that ends it. Then it
calls main in the process that has the arguments and the environment of the stack and is otherwise
as before, and ends as main's result says. -/
theorem posixCallMainAndExit_parses {s : Startup len} {args env : List UInt64}
    {aux : List (UInt64 × UInt64)} (hstack : Holds s.stack s.argc_ptr (layout args env aux))
    (henv : 0 ∉ env) (haux : ∀ pair ∈ aux, pair.1 ≠ 0) (hlen : AT_PAGESZ < len)
    (hpage : LastWith (entries aux) AT_PAGESZ page_size) :
    ∃ t argv envp, Parsed args env aux s t argv envp ∧
      (∀ main, (posixCallMainAndExit main).run s = concluded t
        (main.run { s.process with raw := ⟨argv, args.length⟩, posix_environ_raw := envp })) ∧
      ∀ main n process,
        main.run { s.process with raw := ⟨argv, args.length⟩, posix_environ_raw := envp } =
          .ok n process →
        0 ≤ n.toInt ∧ n.toInt < 256 →
        (posixCallMainAndExit main).run s =
          .ok (UInt8.ofNat n.toInt.toNat) { t with process } := by
  obtain ⟨t, hadv, hrun⟩ := scans_run hstack henv haux hlen hpage
  obtain ⟨_, hargs, henvp, _⟩ := layout_sections hstack henv
  have hprocess : t.process = s.process := by rw [hadv.state]
  have hends : ∀ main, (posixCallMainAndExit main).run s = concluded t
      (main.run { s.process with
        raw := ⟨s.argc_ptr + 1, args.length⟩
        posix_environ_raw := ⟨s.argc_ptr + 1 + args.length + 1, env.length⟩ }) := by
    intro main
    rw [hrun main, exitWithMain_concluded, hprocess]
  refine ⟨t, _, _, ?_, hends, ?_⟩
  · constructor
    · exact hadv.stack
    · exact hprocess
    · exact hargs
    · exact ⟨henvp.bytes.left, rfl⟩
    · intro k hk v hv
      rw [hadv.table_eq, fill_last hk hv]
    · intro k hk hmissing
      rw [hadv.table_eq, fill_missing hk hmissing]
    · exact hadv.reads
  · intro main n process hmain hn
    rw [hends main, hmain, concluded, if_pos hn]

/-- One argument, one environment variable, the page size twice and a key outside the table. -/
def firstStack : WordMem :=
  image 8 (layout [100] [200] [(6, 1), (50, 7), (6, 4096)]) (by decide) (by decide)

theorem posixCallMainAndExit_parses_example :
    ∃ t argv envp, Parsed [100] [200] [(6, 1), (50, 7), (6, 4096)]
        ⟨firstStack, 8, Vector.replicate 38 0, started ⟨0, 0⟩ ⟨0, 0⟩, []⟩ t argv envp ∧
      (∀ main, (posixCallMainAndExit main).run
          ⟨firstStack, 8, Vector.replicate 38 0, started ⟨0, 0⟩ ⟨0, 0⟩, []⟩ =
        concluded t (main.run { started ⟨0, 0⟩ ⟨0, 0⟩ with
          raw := ⟨argv, 1⟩, posix_environ_raw := envp })) ∧
      ∀ main n process,
        main.run { started ⟨0, 0⟩ ⟨0, 0⟩ with raw := ⟨argv, 1⟩, posix_environ_raw := envp } =
          .ok n process →
        0 ≤ n.toInt ∧ n.toInt < 256 →
        (posixCallMainAndExit main).run
          ⟨firstStack, 8, Vector.replicate 38 0, started ⟨0, 0⟩ ⟨0, 0⟩, []⟩ =
          .ok (UInt8.ofNat n.toInt.toNat) { t with process } :=
  @posixCallMainAndExit_parses _ _ [100] _ _ (by decide) (by decide) (by simp) (by decide)
    ⟨[(6, 1), (50, 7)], [], rfl, fun _ hnone => absurd hnone List.not_mem_nil⟩

end Crt
