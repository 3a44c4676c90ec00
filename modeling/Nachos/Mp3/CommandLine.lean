import Mathlib.Data.Int.Notation
import Mathlib.Data.Nat.Notation
import Mathlib.Logic.Function.Basic
import Mathlib.Tactic.Common

/-!
# The command line

`Kernel::Kernel`, `Kernel::ExecAll` and `Kernel::Exec` (`threads/kernel.cc`): the loop over
`argv` with the index that the options advance, and the tables of ten entries that it
fills and from which the programs are started. The kernel is made with `new`, so that the
tables hold what was in memory; the two counters are taken as 0.
-/

namespace Nachos.Mp3.CommandLine

/-- What ends the start of the kernel: an `ASSERT`, or an access outside `argv` or outside a table. -/
inductive Stop where
  | assertion
  | argv
  | table
  deriving DecidableEq, Repr

/-- `atoi` where a `long` has 32 bits: `strtol` stops at the ends of its range. -/
def atoi (s : String) : ℤ :=
  let s := s.toList.dropWhile fun c => c = ' ' ∨ ('\t' ≤ c ∧ c ≤ '\r')
  let (negative, s) := match s with
    | '-' :: s => (true, s)
    | '+' :: s => (false, s)
    | s => (false, s)
  let n : ℕ := (s.takeWhile Char.isDigit).foldl (fun n c => 10 * n + (c.toNat - '0'.toNat)) 0
  if negative then max (-2147483648) (-n) else min 2147483647 n

/-- The options of the kernel. -/
inductive Flag where
  | rs | s | e | ee | ci | co | f | n | m | u | ep | other
  deriving DecidableEq, Repr

/-- The chain of `strcmp`s. `-f` belongs to the builds without `FILESYS_STUB`. -/
def flag (arg : String) : Flag :=
  if arg = "-rs" then .rs
  else if arg = "-s" then .s
  else if arg = "-e" then .e
  else if arg = "-ee" then .ee
  else if arg = "-ci" then .ci
  else if arg = "-co" then .co
  else if arg = "-f" then .f
  else if arg = "-n" then .n
  else if arg = "-m" then .m
  else if arg = "-u" then .u
  else if arg = "-ep" then .ep
  else .other

/-- `execfile` and `exec_Priority`, and the counter of both. -/
structure Tables where
  execfile : ℕ → String
  execPriority : ℕ → ℤ
  execfileNum : ℕ

/-- What the constructor writes. The reliability is the text given to `atof`, 1 without one. -/
structure Config where
  randomSlice : Bool := false
  debugUserProg : Bool := false
  execExit : Bool := false
  priorityFlag : Bool := false
  consoleIn : Option String := none
  consoleOut : Option String := none
  formatFlag : Bool := false
  reliability : Option String := none
  hostName : ℤ := 0
  seed : Option ℤ := none
  cout : List String := []
  tables : Tables

/-! ## Accesses -/

def argument (argv : List String) (i : ℕ) : Except Stop String :=
  match argv[i]? with
  | some arg => pure arg
  | none => throw .argv

/-- `ASSERT(i + 1 < argc)`. -/
def assertNext (argv : List String) (i : ℕ) : Except Stop Unit := if i + 1 < argv.length then pure () else throw .assertion

variable {α : Type}

def entry (table : ℕ → α) (i : ℕ) : Except Stop α := if i < 10 then pure (table i) else throw .table

def setEntry (table : ℕ → α) (i : ℕ) (v : α) : Except Stop (ℕ → α) :=
  if i < 10 then pure (Function.update table i v) else throw .table

/-- `execfile[++execfileNum] = name`. -/
def Tables.addFile (tables : Tables) (name : String) : Except Stop Tables := do
  let execfile ← setEntry tables.execfile (tables.execfileNum + 1) name
  pure { tables with execfile := execfile, execfileNum := tables.execfileNum + 1 }

/-- `exec_Priority[execfileNum] = P`. -/
def Tables.setPriority (tables : Tables) (P : ℤ) : Except Stop Tables := do
  let execPriority ← setEntry tables.execPriority tables.execfileNum P
  pure { tables with execPriority := execPriority }

/-! ## `Kernel::Kernel` -/

def usage : List String :=
  ["Partial usage: nachos [-rs randomSeed]\n", "Partial usage: nachos [-s]\n",
    "Partial usage: nachos [-ci consoleIn] [-co consoleOut]\n", "Partial usage: nachos [-nf]\n",
    "Partial usage: nachos [-n #] [-m #]\n"]

/-- The body of the loop, with how far it moves the index. -/
def option (argv : List String) (i : ℕ) (c : Config) : Except Stop (ℕ × Config) := do
  let arg ← argument argv i
  match flag arg with
  | .rs => do
    assertNext argv i
    let seed ← argument argv (i + 1)
    pure (1, { c with seed := some (atoi seed), randomSlice := true })
  | .s => pure (0, { c with debugUserProg := true })
  | .e => do
    let name ← argument argv (i + 1)
    let tables ← c.tables.addFile name
    let shown ← entry tables.execfile tables.execfileNum
    pure (1, { c with tables := tables, cout := c.cout ++ [shown ++ "\n"] })
  | .ee => pure (0, { c with execExit := true })
  | .ci => do
    assertNext argv i
    let consoleIn ← argument argv (i + 1)
    pure (1, { c with consoleIn := some consoleIn })
  | .co => do
    assertNext argv i
    let consoleOut ← argument argv (i + 1)
    pure (1, { c with consoleOut := some consoleOut })
  | .f => pure (0, { c with formatFlag := true })
  | .n => do
    assertNext argv i
    let reliability ← argument argv (i + 1)
    pure (1, { c with reliability := some reliability })
  | .m => do
    assertNext argv i
    let hostName ← argument argv (i + 1)
    pure (1, { c with hostName := atoi hostName })
  | .u => pure (0, { c with cout := c.cout ++ usage })
  | .ep => do
    let name ← argument argv (i + 1)
    let tables ← c.tables.addFile name
    let P ← argument argv (i + 2)
    let tables ← tables.setPriority (atoi P)
    pure (2, { c with tables := tables, priorityFlag := true })
  | .other => pure (0, c)

/-- The loop. -/
def options (argv : List String) (i : ℕ) (c : Config) : Except Stop Config :=
  if i < argv.length then do
    let (skipped, c) ← option argv i c
    options argv (i + skipped + 1) c
  else pure c
termination_by argv.length - i

/-- `Kernel::Kernel` on the memory of a new kernel. -/
def newKernel (argv : List String) (raw : Tables) : Except Stop Config :=
  options argv 1 { tables := { raw with execfileNum := 0 } }

/-! ## `Kernel::ExecAll` -/

/-- A thread that `Exec` makes. -/
structure Forked where
  name : String
  threadID : ℕ
  priority : ℤ
  deriving DecidableEq, Repr

/-- The part of the kernel that `ExecAll` works on, with the threads that were forked. -/
structure Started where
  tables : Tables
  threadNum : ℕ
  t : ℕ → Option Forked
  forked : List Forked

/-- `Kernel::Initialize` makes the main thread, with the identifier 0. -/
def initialized (c : Config) : Started where
  tables := c.tables
  threadNum := 1
  t _ := none
  forked := []

/-- `Kernel::Exec`. -/
def exec (k : Started) (idx : ℕ) (name : String) : Except Stop Started := do
  let P ← entry k.tables.execPriority idx
  let thread : Forked := if P > 0 then ⟨name, k.threadNum, P⟩ else ⟨name, k.threadNum, 0⟩
  let t ← setEntry k.t k.threadNum (some thread)
  pure { k with t := t, threadNum := k.threadNum + 1, forked := k.forked ++ [thread] }

/-- The body of the loop of `ExecAll`. -/
def execNext (k : Started) (i : ℕ) : Except Stop Started := do
  let name ← entry k.tables.execfile i
  exec k i name

/-- `Kernel::ExecAll` up to `Finish`. -/
def execAll (k : Started) : Except Stop Started := (List.range' 1 k.tables.execfileNum).foldlM execNext k

/-- The start of the kernel, with the threads it forks. -/
def boot (argv : List String) (raw : Tables) : Except Stop (List Forked) := do
  let c ← newKernel argv raw
  let k ← execAll (initialized c)
  pure k.forked

/-! ## What the command line says -/

/-- A program named by `-e` or `-ep`. -/
structure Program where
  name : String
  given : Option ℤ
  deriving DecidableEq, Repr

/-- How a command line ends: `asserted` without the argument of an option that tests for it, `cut` without
one of a program. -/
inductive Ending where
  | complete
  | asserted
  | cut
  deriving DecidableEq, Repr

/-- What stands behind an option: nothing, an argument that it tests for, a program, or a program and a priority. -/
inductive Shape where
  | plain
  | tested
  | program
  | programPriority
  deriving DecidableEq, Repr

def Flag.shape : Flag → Shape
  | .s | .ee | .f | .u | .other => .plain
  | .rs | .ci | .co | .n | .m => .tested
  | .e => .program
  | .ep => .programPriority

/-- The programs that the arguments name. -/
def reading : List String → List Program × Ending
  | [] => ([], .complete)
  | arg :: rest =>
    match (flag arg).shape with
    | .plain => reading rest
    | .tested =>
      match rest with
      | _ :: rest => reading rest
      | [] => ([], .asserted)
    | .program =>
      match rest with
      | name :: rest => (⟨name, none⟩ :: (reading rest).1, (reading rest).2)
      | [] => ([], .cut)
    | .programPriority =>
      match rest with
      | name :: P :: rest => (⟨name, some (atoi P)⟩ :: (reading rest).1, (reading rest).2)
      | [name] => ([⟨name, none⟩], .cut)
      | [] => ([], .cut)

/-- The programs of a command line, which starts with the name of the kernel. -/
def programs (argv : List String) : List Program := (reading argv.tail).1

def ending (argv : List String) : Ending := (reading argv.tail).2

/-- No access is out of bounds, and the programs named are started once each and in order, with the priorities
given to them. -/
def Serves (argv : List String) (raw : Tables) : Prop :=
  match boot argv raw with
  | .ok threads => threads.map (fun th => (th.name, th.priority)) = (programs argv).map fun p => (p.name, p.given.getD 0)
  | .error .assertion => programs argv = []
  | .error _ => False

/-! ## The loop reads the command line -/

/-- What a program adds to the tables. -/
def Tables.add (tables : Tables) (p : Program) : Except Stop Tables := do
  let tables ← tables.addFile p.name
  match p.given with
  | none => pure tables
  | some P => tables.setPriority P

/-- The tables that a reading leads to. -/
def Ending.close (tables : Tables) : Ending → Except Stop Tables
  | .complete => pure tables
  | .asserted => throw .assertion
  | .cut => throw .argv

variable {argv rest : List String} {arg name : String} {i : ℕ} {c : Config} {tables : Tables}

theorem argument_eq (h : argv.drop i = arg :: rest) : argument argv i = .ok arg := by
  have here : argv[i]? = some arg := by
    rw [← List.head?_drop, h]
    rfl
  rw [argument, here]
  rfl

theorem argument_end (h : argv.drop i = []) : argument argv i = .error .argv := by
  have none : argv[i]? = none := List.getElem?_eq_none (List.drop_eq_nil_iff.1 h)
  rw [argument, none]
  rfl

theorem drop_next (h : argv.drop i = arg :: rest) : argv.drop (i + 1) = rest := by
  rw [← List.drop_drop, h]
  rfl

theorem lt_of_drop (h : argv.drop i = arg :: rest) : i < argv.length := by
  by_contra more
  rw [List.drop_eq_nil_iff.2 (by omega)] at h
  cases h

theorem assertNext_eq (h : argv.drop (i + 1) = arg :: rest) : assertNext argv i = .ok () := if_pos (lt_of_drop h)

theorem assertNext_end (h : argv.drop (i + 1) = []) : assertNext argv i = .error .assertion := by
  have last := List.drop_eq_nil_iff.1 h
  exact if_neg (by omega)

/-- The last entry written can be read. -/
theorem entry_addFile {tables' : Tables} (h : tables.addFile name = .ok tables') : entry tables'.execfile tables'.execfileNum = .ok name := by
  rw [Tables.addFile, setEntry] at h
  by_cases room : tables.execfileNum + 1 < 10
  · rw [if_pos room] at h
    cases h
    rw [entry, if_pos room]
    exact congrArg Except.ok (Function.update_self ..)
  · rw [if_neg room] at h
    cases h

/-! ### One option -/

/-- What an option does to the index and to the tables. -/
def effect (argv : List String) (i : ℕ) (c : Config) : Except Stop (ℕ × Tables) := (option argv i c).map fun r => (r.1, r.2.tables)

theorem effect_plain (h : argv.drop i = arg :: rest) (shape : (flag arg).shape = .plain) :
    effect argv i c = .ok (0, c.tables) := by
  rw [effect, option, argument_eq h]
  cases f : flag arg with
  | rs | ci | co | n | m | e | ep =>
    rw [f] at shape
    cases shape
  | s | ee | f | u | other =>
    simp only [bind, Except.bind, f]
    rfl

theorem effect_tested (h : argv.drop i = arg :: name :: rest) (shape : (flag arg).shape = .tested) :
    effect argv i c = .ok (1, c.tables) := by
  rw [effect, option, argument_eq h]
  cases f : flag arg with
  | s | ee | f | u | other | e | ep =>
    rw [f] at shape
    cases shape
  | rs | ci | co | n | m =>
    simp only [bind, Except.bind, f, assertNext_eq (drop_next h), argument_eq (drop_next h)]
    rfl

theorem effect_untested (h : argv.drop i = [arg]) (shape : (flag arg).shape = .tested) : effect argv i c = .error .assertion := by
  rw [effect, option, argument_eq h]
  cases f : flag arg with
  | s | ee | f | u | other | e | ep =>
    rw [f] at shape
    cases shape
  | rs | ci | co | n | m =>
    simp only [bind, Except.bind, f, assertNext_end (drop_next h)]
    rfl

theorem flag_of_program (shape : (flag arg).shape = .program) : flag arg = .e := by
  cases f : flag arg with
  | e => rfl
  | _ =>
    rw [f] at shape
    cases shape

theorem flag_of_programPriority (shape : (flag arg).shape = .programPriority) : flag arg = .ep := by
  cases f : flag arg with
  | ep => rfl
  | _ =>
    rw [f] at shape
    cases shape

theorem effect_program (h : argv.drop i = arg :: name :: rest) (shape : (flag arg).shape = .program) :
    effect argv i c = (c.tables.add ⟨name, none⟩).map (1, ·) := by
  rw [effect, option, argument_eq h, Tables.add]
  simp only [bind, Except.bind, flag_of_program shape, argument_eq (drop_next h)]
  cases added : c.tables.addFile name with
  | error e => rfl
  | ok tables =>
    simp only [entry_addFile added]
    rfl

/-- An option for a program as the last argument. -/
theorem effect_cut (h : argv.drop i = [arg]) (shape : (flag arg).shape = .program ∨ (flag arg).shape = .programPriority) :
    effect argv i c = .error .argv := by
  rw [effect, option, argument_eq h]
  cases shape with
  | inl shape =>
    simp only [bind, Except.bind, flag_of_program shape, argument_end (drop_next h)]
    rfl
  | inr shape =>
    simp only [bind, Except.bind, flag_of_programPriority shape, argument_end (drop_next h)]
    rfl

theorem effect_programPriority {P : String} (h : argv.drop i = arg :: name :: P :: rest) (shape : (flag arg).shape = .programPriority) :
    effect argv i c = (c.tables.add ⟨name, some (atoi P)⟩).map (2, ·) := by
  have second : argument argv (i + 2) = .ok P := argument_eq (drop_next (drop_next h))
  rw [effect, option, argument_eq h, Tables.add]
  simp only [bind, Except.bind, flag_of_programPriority shape, argument_eq (drop_next h), second]
  cases c.tables.addFile name with
  | error e => rfl
  | ok tables =>
    dsimp only
    cases tables.setPriority (atoi P) <;> rfl

/-- A program without its priority. -/
theorem effect_cutPriority (h : argv.drop i = [arg, name]) (shape : (flag arg).shape = .programPriority) :
    effect argv i c = c.tables.add ⟨name, none⟩ >>= fun _ => throw .argv := by
  have second : argument argv (i + 2) = .error .argv := argument_end (drop_next (drop_next h))
  rw [effect, option, argument_eq h, Tables.add]
  simp only [bind, Except.bind, flag_of_programPriority shape, argument_eq (drop_next h), second]
  cases c.tables.addFile name <;> rfl

/-! ### All options -/

/-- What the constructor leaves of a command line. -/
def outcome (r : List Program × Ending) (tables : Tables) : Except Stop Tables := do
  let tables ← r.1.foldlM Tables.add tables
  r.2.close tables

theorem outcome_cons (p : Program) (ps : List Program) (e : Ending) :
    outcome (p :: ps, e) tables = tables.add p >>= outcome (ps, e) := by
  rw [outcome, List.foldlM_cons, bind_assoc]
  rfl

/-- One round of the loop and the rounds behind it. -/
theorem options_round (h : argv.drop i = arg :: rest) {r : Except Stop Tables} {skipped : ℕ} {f : Tables → Except Stop Tables}
    (first : effect argv i c = r.map (skipped, ·))
    (others : ∀ c', (options argv (i + skipped + 1) c').map Config.tables = f c'.tables) :
    (options argv i c).map Config.tables = r >>= f := by
  rw [options, if_pos (lt_of_drop h)]
  rw [effect] at first
  cases done : option argv i c with
  | error e =>
    rw [done] at first
    cases r with
    | error e' =>
      cases first
      rfl
    | ok tables => cases first
  | ok o =>
    rw [done] at first
    cases r with
    | error e' => cases first
    | ok tables =>
      cases first
      exact others o.2

/-- An option that stops the loop. -/
theorem options_stop (h : argv.drop i = arg :: rest) {e : Stop} (stops : effect argv i c = .error e) :
    (options argv i c).map Config.tables = .error e := by
  rw [options, if_pos (lt_of_drop h)]
  rw [effect] at stops
  cases done : option argv i c with
  | error e' =>
    rw [done] at stops
    cases stops
    rfl
  | ok o =>
    rw [done] at stops
    cases stops

/-- **The loop reads the command line.** -/
theorem options_eq (h : argv.drop i = rest) : (options argv i c).map Config.tables = outcome (reading rest) c.tables := by
  fun_induction reading rest generalizing i c with
  | case1 =>
    have last := List.drop_eq_nil_iff.1 h
    rw [options, if_neg (by omega)]
    rfl
  | case2 arg rest shape ih => exact options_round (r := .ok _) h (effect_plain h shape) fun _ => ih (drop_next h)
  | case3 arg shape name rest ih =>
    exact options_round (r := .ok _) h (effect_tested h shape) fun _ => ih (drop_next (drop_next h))
  | case4 arg shape => exact options_stop h (effect_untested h shape)
  | case5 arg shape name rest ih =>
    rw [outcome_cons]
    exact options_round h (effect_program h shape) fun _ => ih (drop_next (drop_next h))
  | case6 arg shape => exact options_stop h (effect_cut h (.inl shape))
  | case7 arg shape name P rest ih =>
    rw [outcome_cons]
    exact options_round h (effect_programPriority h shape) fun _ => ih (drop_next (drop_next (drop_next h)))
  | case8 arg shape name =>
    have cut := effect_cutPriority (c := c) h shape
    rw [outcome_cons]
    cases added : c.tables.add ⟨name, none⟩ with
    | error e =>
      rw [added] at cut
      exact options_stop h cut
    | ok tables =>
      rw [added] at cut
      exact options_stop h cut
  | case9 arg shape => exact options_stop h (effect_cut h (.inr shape))

/-! ## The tables -/

/-- The tables after some programs. -/
structure Filled (raw : Tables) (ps : List Program) (tables : Tables) : Prop where
  count : tables.execfileNum = ps.length
  files : ∀ i p, ps[i]? = some p → tables.execfile (i + 1) = p.name
  priorities : ∀ i p, ps[i]? = some p → tables.execPriority (i + 1) = p.given.getD (raw.execPriority (i + 1))
  free : ∀ i, ps.length < i → tables.execPriority i = raw.execPriority i

variable {raw : Tables} {ps done : List Program} {p : Program}

theorem setEntry_eq {table : ℕ → α} {v : α} (h : i < 10) : setEntry table i v = .ok (Function.update table i v) := if_pos h

theorem entry_eq {table : ℕ → α} (h : i < 10) : entry table i = .ok (table i) := if_pos h

theorem Filled.empty (raw : Tables) : Filled raw [] { raw with execfileNum := 0 } where
  count := rfl
  files _ _ := nofun
  priorities _ _ := nofun
  free _ _ := rfl

/-- The tables after one more program. -/
def Tables.added (tables : Tables) (p : Program) : Tables where
  execfile := Function.update tables.execfile (tables.execfileNum + 1) p.name
  execPriority := Function.update tables.execPriority (tables.execfileNum + 1)
    (p.given.getD (tables.execPriority (tables.execfileNum + 1)))
  execfileNum := tables.execfileNum + 1

theorem Tables.add_eq (room : tables.execfileNum + 1 < 10) : tables.add p = .ok (tables.added p) := by
  rw [Tables.add, addFile, setEntry_eq room]
  cases given : p.given with
  | none =>
    rw [added, given, Option.getD_none, Function.update_eq_self]
    rfl
  | some P =>
    simp only [bind, Except.bind, pure, Except.pure, setPriority, setEntry_eq room]
    rw [added, given]
    rfl

theorem Tables.add_full (full : 10 ≤ tables.execfileNum + 1) : tables.add p = .error .table := by
  rw [Tables.add, addFile, setEntry, if_neg (by omega)]
  rfl

theorem Filled.added (h : Filled raw ps tables) : Filled raw (ps ++ [p]) (tables.added p) := by
  have split : ∀ {i q}, (ps ++ [p])[i]? = some q → (i < ps.length ∧ ps[i]? = some q) ∨ (i = ps.length ∧ q = p) := by
    intro i q here
    rcases Nat.lt_or_ge i ps.length with before | behind
    · rw [List.getElem?_append_left before] at here
      exact .inl ⟨before, here⟩
    · rw [List.getElem?_append_right behind, List.getElem?_singleton] at here
      split at here
      · cases here
        exact .inr ⟨by omega, rfl⟩
      · cases here
  have count := h.count
  constructor
  · rw [List.length_append, Tables.added, count]
    rfl
  · intro i q here
    obtain ⟨before, here⟩ | ⟨rfl, rfl⟩ := split here
    · rw [Tables.added]
      dsimp only
      rw [Function.update_of_ne (by omega)]
      exact h.files i q here
    · rw [Tables.added]
      dsimp only
      rw [count, Function.update_self]
  · intro i q here
    obtain ⟨before, here⟩ | ⟨rfl, rfl⟩ := split here
    · rw [Tables.added]
      dsimp only
      rw [Function.update_of_ne (by omega)]
      exact h.priorities i q here
    · rw [Tables.added]
      dsimp only
      rw [count, Function.update_self, h.free _ (Nat.lt_succ_self _)]
  · intro i behind
    rw [List.length_append, List.length_singleton] at behind
    rw [Tables.added]
    dsimp only
    rw [Function.update_of_ne (by omega)]
    exact h.free i (by omega)

/-- The programs fit. -/
theorem Filled.fill (h : Filled raw done tables) (ps : List Program) (room : done.length + ps.length ≤ 9) :
    ∃ tables', ps.foldlM Tables.add tables = .ok tables' ∧ Filled raw (done ++ ps) tables' := by
  induction ps generalizing done tables with
  | nil => exact ⟨tables, rfl, by rwa [List.append_nil]⟩
  | cons p ps ih =>
    rw [List.length_cons] at room
    have count := h.count
    obtain ⟨tables', filled, rest⟩ := ih (h.added (p := p)) (by rw [List.length_append, List.length_singleton]; omega)
    rw [List.append_assoc, List.singleton_append] at rest
    refine ⟨tables', ?_, rest⟩
    rw [List.foldlM_cons, Tables.add_eq (by omega)]
    exact filled

/-- The programs do not fit. -/
theorem Filled.overfill (h : Filled raw done tables) (fits : done.length ≤ 9) (many : 9 < done.length + ps.length) :
    ps.foldlM Tables.add tables = .error .table := by
  induction ps generalizing done tables with
  | nil =>
    rw [List.length_nil] at many
    omega
  | cons p ps ih =>
    rw [List.length_cons] at many
    have count := h.count
    rw [List.foldlM_cons]
    rcases Nat.lt_or_ge done.length 9 with room | full
    · rw [Tables.add_eq (by omega)]
      exact ih (h.added (p := p)) (by rw [List.length_append, List.length_singleton]; omega)
        (by rw [List.length_append, List.length_singleton]; omega)
    · rw [Tables.add_full (by omega)]
      rfl

/-! ## The threads -/

/-- The thread that `Exec` makes for the program of an index. -/
def thread (raw : Tables) (q : Program × ℕ) : Forked :=
  let P := q.1.given.getD (raw.execPriority q.2)
  ⟨q.1.name, q.2, if P > 0 then P else 0⟩

/-- The threads of the programs; the main thread has the identifier 0. -/
def threads (raw : Tables) (ps : List Program) : List Forked := (ps.zipIdx 1).map (thread raw)

theorem execNext_eq (raw : Tables) {k : Started} (idx : i < 10) {q : Program}
    (name : k.tables.execfile i = q.name) (P : k.tables.execPriority i = q.given.getD (raw.execPriority i))
    (same : k.threadNum = i) : execNext k i = .ok { k with
      t := Function.update k.t i (some (thread raw (q, i))), threadNum := i + 1, forked := k.forked ++ [thread raw (q, i)] } := by
  have made : (if k.tables.execPriority i > 0 then ⟨q.name, i, k.tables.execPriority i⟩ else ⟨q.name, i, 0⟩ : Forked) = thread raw (q, i) := by
    rw [thread, P]
    dsimp only
    split <;> rfl
  rw [execNext, entry_eq idx, name]
  simp only [bind, Except.bind, exec, entry_eq idx, same, made, setEntry_eq idx]
  rfl

theorem Filled.execs {all : List Program} (h : Filled raw all tables) (room : all.length ≤ 9) {k : Started} (rest : all.drop i = ps)
    (here : k.tables = tables) (num : k.threadNum = i + 1) :
    ∃ k', (List.range' (i + 1) ps.length).foldlM execNext k = .ok k' ∧ k'.forked = k.forked ++ (ps.zipIdx (i + 1)).map (thread raw) := by
  induction ps generalizing i k with
  | nil => exact ⟨k, rfl, (List.append_nil _).symm⟩
  | cons p ps ih =>
    have at_i : all[i]? = some p := by
      rw [← List.head?_drop, rest]
      rfl
    have inside : i < all.length := (List.getElem?_eq_some_iff.1 at_i).1
    have one := execNext_eq raw (k := k) (q := p) (i := i + 1) (by omega)
      (by rw [here]; exact h.files i p at_i) (by rw [here]; exact h.priorities i p at_i) num
    have tail : all.drop (i + 1) = ps := by
      rw [← List.drop_drop, rest]
      rfl
    obtain ⟨k', done, forked⟩ := ih (k := { k with
      t := Function.update k.t (i + 1) (some (thread raw (p, i + 1))), threadNum := i + 1 + 1,
      forked := k.forked ++ [thread raw (p, i + 1)] }) tail here rfl
    refine ⟨k', ?_, ?_⟩
    · rw [List.length_cons, List.range'_succ, List.foldlM_cons, one]
      exact done
    · rw [forked, List.zipIdx_cons, List.map_cons, List.append_assoc]
      rfl

/-! ## The start of the kernel -/

variable {argv : List String}

theorem newKernel_eq (argv : List String) (raw : Tables) :
    (newKernel argv raw).map Config.tables = outcome (programs argv, ending argv) { raw with execfileNum := 0 } :=
  options_eq List.drop_one

/-- A command line that is complete, with at most nine programs. -/
theorem boot_eq (fits : (programs argv).length ≤ 9) (complete : ending argv = .complete) :
    boot argv raw = .ok (threads raw (programs argv)) := by
  obtain ⟨tables, filled, holds⟩ := (Filled.empty raw).fill (programs argv) (by rwa [List.length_nil, Nat.zero_add])
  rw [List.nil_append] at holds
  have made := newKernel_eq argv raw
  rw [outcome, filled, complete] at made
  rw [boot]
  cases kernel : newKernel argv raw with
  | error e =>
    rw [kernel] at made
    cases made
  | ok c =>
    rw [kernel] at made
    cases made
    obtain ⟨k, ran, forked⟩ := holds.execs fits (k := initialized c) (i := 0) List.drop_zero rfl rfl
    rw [← holds.count] at ran
    change execAll (initialized c) = _ at ran
    simp only [bind, Except.bind, ran]
    exact congrArg Except.ok forked

/-- Any other command line stops the kernel. -/
theorem boot_stop {e : Stop} (stops : outcome (programs argv, ending argv) { raw with execfileNum := 0 } = .error e) :
    boot argv raw = .error e := by
  have made := newKernel_eq argv raw
  rw [stops] at made
  rw [boot]
  cases kernel : newKernel argv raw with
  | error e' =>
    rw [kernel] at made
    cases made
    rfl
  | ok c =>
    rw [kernel] at made
    cases made

theorem boot_many (many : 9 < (programs argv).length) : boot argv raw = .error .table := by
  apply boot_stop
  rw [outcome, (Filled.empty raw).overfill (Nat.zero_le _) (by rwa [List.length_nil, Nat.zero_add])]
  rfl

theorem boot_unfinished (fits : (programs argv).length ≤ 9) {e : Stop} (unfinished : ∀ tables, (ending argv).close tables = .error e) :
    boot argv raw = .error e := by
  obtain ⟨tables, filled, -⟩ := (Filled.empty raw).fill (programs argv) (by rwa [List.length_nil, Nat.zero_add])
  apply boot_stop
  rw [outcome, filled]
  exact unfinished tables

/-- No priority is negative, and where none is given the table holds no positive one. -/
def Usable (raw : Tables) (q : Program × ℕ) : Prop :=
  match q.1.given with
  | some P => 0 ≤ P
  | none => raw.execPriority q.2 ≤ 0

theorem thread_priority_iff {q : Program × ℕ} : (thread raw q).priority = q.1.given.getD 0 ↔ Usable raw q := by
  rw [thread, Usable]
  cases q.1.given with
  | some P =>
    rw [Option.getD_some, Option.getD_some]
    dsimp only
    split <;> omega
  | none =>
    rw [Option.getD_none, Option.getD_none]
    dsimp only
    split <;> omega

theorem threads_agree_iff : (threads raw ps).map (fun th => (th.name, th.priority)) = ps.map (fun p => (p.name, p.given.getD 0)) ↔
    ∀ q ∈ ps.zipIdx 1, Usable raw q := by
  have given : ps.map (fun p => (p.name, p.given.getD 0)) = (ps.zipIdx 1).map fun q => (q.1.name, q.1.given.getD 0) := by
    conv_lhs => rw [← List.zipIdx_map_fst 1 ps]
    rw [List.map_map]
    rfl
  rw [given, threads, List.map_map, List.map_inj_left]
  apply forall₂_congr
  intro q _
  rw [← thread_priority_iff, Function.comp_apply, Prod.mk.injEq]
  exact and_iff_right rfl

/-- **The command line.** The accesses stay in bounds and the programs named are executed once each with their
priorities, exactly when at most nine are named, the arguments of all options are there and no priority is negative. -/
theorem serves_iff (argv : List String) (raw : Tables) : Serves argv raw ↔
    (ending argv = .complete ∧ (programs argv).length ≤ 9 ∧ ∀ q ∈ (programs argv).zipIdx 1, Usable raw q) ∨
      (ending argv = .asserted ∧ programs argv = []) := by
  rw [Serves]
  rcases Nat.lt_or_ge 9 (programs argv).length with many | fits
  · rw [boot_many many]
    refine iff_of_false not_false ?_
    rintro (⟨-, fits, -⟩ | ⟨-, none⟩)
    · omega
    · rw [none] at many
      cases many
  cases last : ending argv with
  | complete =>
    rw [boot_eq fits last]
    simp only [threads_agree_iff, fits, true_and, reduceCtorEq, false_and, or_false]
  | asserted =>
    rw [boot_unfinished fits (e := .assertion) (by rw [last]; exact fun _ => rfl)]
    simp only [reduceCtorEq, false_and, false_or, true_and]
  | cut =>
    rw [boot_unfinished fits (e := .argv) (by rw [last]; exact fun _ => rfl)]
    simp only [reduceCtorEq, false_and, or_false]

/-- A program option as the last argument: the constructor reads the pointer behind the arguments. -/
theorem reads_behind_argv : ∃ raw, ¬ Serves ["nachos", "-e"] raw ∧ newKernel ["nachos", "-e"] raw = .error .argv := by
  refine ⟨⟨fun _ => "", fun _ => 0, 0⟩, ?_, ?_⟩
  · rw [Serves, boot, newKernel, options]
    exact not_false
  · rw [newKernel, options]
    rfl

end Nachos.Mp3.CommandLine
