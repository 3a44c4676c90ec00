import Nachos.User.Switching

/-!
# Programs do not notice each other

Each program runs as if it had the processor and the memory to itself. Its registers, its memory
and its exceptions are those of a private run over its own events, whichever programs are loaded
beside it, whichever frames they get and whenever the processor is taken from it.
-/

namespace Nachos.User
open Bytes Transition Nachos.Mp2 Nachos.Mp3

/-! ## What `Load` gives a program -/

/-- The segments of a program are copied to where their addresses are mapped. -/
structure Loadable (m : Memory) (exe : Executable) : Prop where
  fits : exe.header.Fits
  long : exe.LongEnough
  joined : ∀ seg ∈ exe.header.segments, seg.Joined m.freeFrames

section load

variable {m m' : Memory} {exe : Executable} {a : AddrSpace}

theorem Loadable.loaded (able : Loadable m exe) (run : AddrSpace.load m (some exe) = some (some a, m')) :
    a.numPages = exe.header.numPages ∧ Loaded m exe a m' ∧ Placed m exe a m' := by
  obtain ⟨enough, loaded⟩ := Loaded.of_load able.fits run
  have pages : a.numPages = exe.header.numPages := by
    rw [AddrSpace.numPages_eq, loaded.frames]
    exact List.length_take_of_le enough
  exact ⟨pages, loaded, (placedIn_iff able.fits m).2 (fun _ => able.joined) exe.file able.long a m' run⟩

/-- A byte of the space, by where the table translates its address to. -/
theorem byte_of_translate (owner : Owner a) {v : ℕ} (inside : v / pageSize < a.numPages) {b : Byte}
    (there : ∃ p c, a.translate v false = .ok (p, c) ∧ m.mainMemory p = b) : (imageOf a m).bytes v = b := by
  obtain ⟨p, c, translated, rfl⟩ := there
  rw [AddrSpace.translate_eq rfl owner.bound (AddrSpace.numPages_eq a ▸ inside)] at translated
  obtain ⟨rfl, -⟩ := Prod.mk.inj (Except.ok.inj translated)
  exact imageOf_of_lt m inside

theorem owner_of_load (run : AddrSpace.load m exe' = some (some a, m')) : Owner a := by
  obtain ⟨valid, nodup, free, -⟩ := AddrSpace.load_spec run
  exact ⟨valid, nodup, fun f mem => (free f mem).1⟩

/-- **A loaded program starts with its image**, whatever the frames are. -/
theorem Loadable.image (able : Loadable m exe) (run : AddrSpace.load m (some exe) = some (some a, m')) :
    imageOf a m' = startImage exe := by
  obtain ⟨pages, loaded, placed⟩ := able.loaded run
  have owner := owner_of_load run
  apply Image.ext
  · exact pages
  · funext p
    rw [Bool.eq_iff_iff, startImage, decide_eq_true_eq, ← loaded.readOnly]
    unfold AddrSpace.ReadOnly
    simp only [imageOf]
    cases a.pageTable[p]? with
    | none => simp
    | some e => simp
  · funext v
    by_cases inside : v / pageSize < a.numPages
    · rw [startImage_of_lt (pages ▸ inside)]
      apply byte_of_translate owner inside
      unfold startByte
      split
      · rename_i seg found
        have mem := List.mem_of_find?_eq_some found
        have here := List.find?_some found
        rw [decide_eq_true_eq] at here
        obtain ⟨k, rfl⟩ := Nat.le.dest here.1
        rw [Nat.add_sub_cancel_left]
        exact placed.bytes seg mem k (by omega)
      · rename_i none
        apply placed.rest
        · rw [← pages]
          exact (Nat.div_lt_iff_lt_mul (by decide)).1 inside
        · rintro seg mem k lt rfl
          have outside := List.find?_eq_none.1 none seg mem
          rw [decide_eq_true_eq] at outside
          omega
    · rw [imageOf_of_not_lt m' inside, startImage_of_not_lt (pages ▸ inside)]

end load

namespace Machine

variable {s s' : Machine} {i j : ℕ}

/-- The event of a program in a step. -/
def emit (s : Machine) : MachineEvent → Option (ℕ × ProcessEvent)
  | .life (.load exe) =>
    match s.kernel.currentThread with
    | .exec i => some (i, .start exe)
    | .main | .postal => none
  | .life _ => none
  | .instruction => s.running.map fun i => (i, .instruction)
  | .answer status => s.running.map fun i => (i, .answer status)
  | .fill addr bytes => s.running.map fun i => (i, .fill addr bytes)

/-- Programs are copied to where their addresses are mapped, and the buffers the host fills are where the
program has them. -/
def Proper (s : Machine) : MachineEvent → Prop
  | .life (.load (some exe)) => Loadable s.kernel.spaces.memory exe
  | .fill addr bytes => ∀ i a, s.running = some i → s.kernel.spaces.space i = some a →
    ∀ k < bytes.length, a.phys (addr.toNat + k) = some (addr.toInt + k)
  | _ => True

/-! ## The events of a program -/

/-- The other programs, when the frames of one change. -/
theorem view_other {a : AddrSpace} (paid : s'.kernel.Paid) (ne : j ≠ i) (owns : s'.kernel.spaces.space i = some a)
    (space : s'.kernel.spaces.space j = s.kernel.spaces.space j)
    (outside : ∀ x, (∀ f ∈ a.frames, ¬ InFrame f x) → s'.kernel.spaces.memory.mainMemory x = s.kernel.spaces.memory.mainMemory x)
    (registers : s'.registersOf j = s.registersOf j) (trapped : s'.trapped j = s.trapped j) : s'.view j = s.view j := by
  unfold view
  rw [space, registers, trapped]
  cases live : s.kernel.spaces.space j with
  | none => rfl
  | some b =>
    have disjoint := paid.sound.exact.disjoint i j ne.symm
    rw [Spaces.holds_of_some owns, Spaces.holds_of_some (space.trans live)] at disjoint
    rw [Option.map_some, Option.map_some, imageOf_apart disjoint outside]

theorem running_inv (run : s.running = some i) :
    s.kernel.currentThread = .exec i ∧ s.kernel.phase = .running ∧ s.kernel.place (.exec i) = .running := by
  unfold running at run
  split at run
  · rename_i j current
    obtain ⟨⟨-, here⟩, eq⟩ := Option.ite_none_right_eq_some.1 run
    obtain rfl := Option.some.inj eq
    refine ⟨current, here.1, ?_⟩
    rw [← current]
    exact here.2
  · cases run
  · cases run

/-- A program that runs is loaded, and the machine has its page table and its registers. -/
theorem Sound.runs (sound : s.Sound) (run : s.running = some i) : ∃ a, s.kernel.spaces.space i = some a ∧ Owner a ∧
    s.pageTable = some i ∧ s.view i = some ⟨s.registers, imageOf a s.kernel.spaces.memory, s.trapped i⟩ := by
  obtain ⟨current, phase, place⟩ := running_inv run
  have loaded := sound.loaded i
  rw [place] at loaded
  obtain ⟨a, live⟩ := Option.isSome_iff_exists.1 (show (s.kernel.spaces.space i).isSome = true from loaded)
  have holds := Spaces.holds_of_some live
  refine ⟨a, live, ⟨sound.paid.sound.valid i a live, ?_, ?_⟩, sound.table i phase current loaded, ?_⟩
  · exact holds ▸ sound.paid.sound.exact.nodup i
  · exact holds ▸ sound.paid.sound.bound i
  · have awake : s.kernel.phase ≠ .switched := by
      rw [phase]
      exact Phase.noConfusion
    unfold view
    rw [live, Option.map_some, registersOf_here current awake]

/-- What a step of program `i` leaves. -/
structure Moves (s s' : Machine) (i : ℕ) (e : ProcessEvent) : Prop where
  sound : s'.Sound
  owner : Process.step (s.view i) e = some (s'.view i)
  others : ∀ j, j ≠ i → s'.view j = s.view j

/-- The machine with other registers and other bytes for program `i`. -/
def change (s : Machine) (i : ℕ) (m : Registers) (r : AddrSpace × Memory) (trap : Option Mp3.ExceptionType) (stopped : Bool) : Machine :=
  { s.withSpace i r with registers := m, trapped := Function.update s.trapped i trap, stopped := stopped }

/-- **A change in the frames of the running program** is seen by nobody else. -/
theorem Sound.change (sound : s.Sound) (run : s.running = some i) {a : AddrSpace} (live : s.kernel.spaces.space i = some a)
    {r : AddrSpace × Memory} (kept : Kept a s.kernel.spaces.memory r) (m : Registers) (trap : Option Mp3.ExceptionType) (stopped : Bool) :
    (s.change i m r trap stopped).Sound ∧ (s.change i m r trap stopped).view i = some ⟨m, imageOf r.1 r.2, trap⟩ ∧
      ∀ j, j ≠ i → (s.change i m r trap stopped).view j = s.view j := by
  obtain ⟨current, phase, -⟩ := running_inv run
  obtain ⟨spaces, holds⟩ := Spaces.access_kept live (b := r.1) kept.mapping kept.status
  have self : (s.kernel.spaces.put r.2 i (some r.1)).space i = some r.1 := Spaces.put_space_self ..
  have other (j : ℕ) (ne : j ≠ i) : (s.kernel.spaces.put r.2 i (some r.1)).space j = s.kernel.spaces.space j :=
    Spaces.put_space_of_ne _ _ ne
  have loaded (j : ℕ) : ((s.kernel.spaces.put r.2 i (some r.1)).space j).isSome = (s.kernel.spaces.space j).isSome := by
    by_cases same : j = i
    · rw [same, self, live]
      rfl
    · rw [other j same]
  have paid : (s.change i m r trap stopped).kernel.Paid := by
    refine ⟨⟨sound.paid.shaped.dying, sound.paid.shaped.pending, sound.paid.shaped.asleep⟩, spaces sound.paid.sound,
      sound.paid.absent, fun j le => ?_⟩
    exact (congrFun holds j).trans (sound.paid.holders j le)
  refine ⟨⟨paid, fun j => ?_, fun j phase' current' live' => ?_, fun j switched => ?_, fun j absent => ?_⟩, ?_, fun j ne => ?_⟩
  · have place := sound.loaded j
    rwa [← loaded j] at place
  · exact sound.table j phase' current' (loaded j ▸ live')
  · have switched : s.kernel.phase = .switched := switched
    rw [phase] at switched
    cases switched
  · have absent : (s.kernel.spaces.put r.2 i (some r.1)).space j = none := absent
    have ne : j ≠ i := by
      rintro rfl
      rw [self] at absent
      cases absent
    rw [other j ne] at absent
    exact (Function.update_of_ne ne ..).trans (sound.calm j absent)
  · have awake : (s.change i m r trap stopped).kernel.phase ≠ .switched := by
      change s.kernel.phase ≠ .switched
      rw [phase]
      exact Phase.noConfusion
    unfold view
    rw [show (s.change i m r trap stopped).kernel.spaces.space i = some r.1 from self, Option.map_some,
      registersOf_here (show (s.change i m r trap stopped).kernel.currentThread = .exec i from current) awake]
    change some (Process.mk m _ (Function.update s.trapped i trap i)) = _
    rw [Function.update_self]
    rfl
  · have away : ¬ (s.kernel.currentThread = .exec j ∧ s.kernel.phase ≠ .switched) := by
      rintro ⟨here, -⟩
      rw [current] at here
      exact ne (ThreadId.exec.inj here).symm
    refine view_other paid ne self (other j ne) (fun x outside => kept.outside x (kept.frames ▸ outside)) ?_ (Function.update_of_ne ne ..)
    rw [registersOf_away away]
    exact registersOf_away (s := s.change i m r trap stopped) away

/-- Bytes that change where no page table does. -/
theorem change_memory (live : s.kernel.spaces.space i = some a) (m : Registers) (memory : Memory) (trap : Option Mp3.ExceptionType) :
    s.change i m (a, memory) trap s.stopped = { s with
      kernel := { s.kernel with spaces := { s.kernel.spaces with memory := memory } }
      registers := m
      trapped := Function.update s.trapped i trap } := by
  have same : Function.update s.kernel.spaces.space i (some a) = s.kernel.spaces.space := by
    rw [← live, Function.update_eq_self]
  simp only [change, withSpace, Spaces.put, same]

theorem instruction_moves (sound : s.Sound) (run : s.running = some i) (free : s.trapped i = none) (next : s.instruction i = some s') :
    Moves s s' i .instruction := by
  obtain ⟨a, live, owner, table, view⟩ := sound.runs run
  unfold instruction at next
  rw [table, Option.bind_eq_bind, Option.bind_some, live, Option.bind_eq_bind, Option.bind_some] at next
  obtain ⟨alike, kept⟩ := (machineBus_hom owner s.kernel.spaces.memory).oneInstruction (Kept.refl a _) s.registers
  have untrapped : s.trapped = Function.update s.trapped i none := by rw [← free, Function.update_eq_self]
  have owns (p : Process) (eq : (Process.mk s.registers (imageOf a s.kernel.spaces.memory) none).instruction = some p) :
      Process.step (s.view i) .instruction = some (some p) := by
    rw [view, free]
    simp only [Process.step, if_true, eq, Option.map_some]
  cases ends : machineBus.oneInstruction s.registers (a, s.kernel.spaces.memory) with
  | done m r =>
    rw [ends] at next alike kept
    obtain rfl := Option.some.inj next
    have same : ({ s.withSpace i r with registers := m } : Machine) = s.change i m r none s.stopped := by
      conv_lhs => rw [withSpace, untrapped]
      rfl
    rw [same]
    obtain ⟨sound', mine, others⟩ := sound.change run live kept m none s.stopped
    refine ⟨sound', ?_, others⟩
    rw [mine]
    apply owns
    simp only [Process.instruction, alike, Ends.map]
  | exception which m r =>
    rw [ends] at next alike kept
    obtain rfl : s.change i m r (some which) (which ≠ .syscallException) = s' := Option.some.inj next
    obtain ⟨sound', mine, others⟩ := sound.change run live kept m (some which) (which ≠ .syscallException)
    refine ⟨sound', ?_, others⟩
    rw [mine]
    apply owns
    simp only [Process.instruction, alike, Ends.map]
  | trap =>
    rw [ends] at next
    cases next
  | assertion =>
    rw [ends] at next
    cases next

/-- `ExceptionHandler` changes registers only. -/
theorem answer_moves (sound : s.Sound) (run : s.running = some i) {status : Word} (trap : s.trapped i = some .syscallException)
    (next : s.answer i status = some s') : Moves s s' i (.answer status) := by
  obtain ⟨a, live, -, -, view⟩ := sound.runs run
  obtain ⟨m, returns, rfl⟩ := Option.map_eq_some_iff.1 next
  have same := change_memory live m s.kernel.spaces.memory none
  obtain ⟨sound', mine, others⟩ := sound.change run live (Kept.refl a _) m none s.stopped
  rw [same] at sound' mine others
  refine ⟨sound', ?_, others⟩
  rw [mine, view, trap]
  simp only [Process.step, if_true, returns, Option.map_some]

/-- The buffer is filled in the frames of the program. -/
theorem fill_moves (sound : s.Sound) (run : s.running = some i) {addr : Word} {bytes : List Byte}
    (reads : s.trapped i = some .syscallException ∧ s.registers 2 = scRead ∧ s.registers 4 = addr) (proper : s.Proper (.fill addr bytes)) :
    Moves s (s.fill addr bytes) i (.fill addr bytes) := by
  obtain ⟨a, live, owner, -, view⟩ := sound.runs run
  have here := proper i a run live
  have kept : Kept a s.kernel.spaces.memory (a, s.kernel.spaces.memory.store addr.toInt bytes) :=
    ⟨rfl, rfl, rfl, fun x outside => store_outside owner _ here outside⟩
  have same : s.change i s.registers (a, s.kernel.spaces.memory.store addr.toInt bytes) (s.trapped i) s.stopped = s.fill addr bytes := by
    rw [change_memory live, Function.update_eq_self]
    rfl
  obtain ⟨sound', mine, others⟩ := sound.change run live kept s.registers (s.trapped i) s.stopped
  rw [same] at sound' mine others
  refine ⟨sound', ?_, others⟩
  rw [mine, view]
  simp only [Process.step]
  rw [if_pos reads, imageOf_fill owner _ here]

/-- `SC_Read` that respects the address spaces, carried out, is such a step. -/
theorem read_moves {fs fs' : Mp1.FileSystem} {a : AddrSpace} {v numChar fileID : Word} {bytes : List Byte} {r : ℤ} {m' : Memory}
    (sound : s.Sound) (run : s.running = some i) (live : s.kernel.spaces.space i = some a)
    (reads : s.trapped i = some .syscallException ∧ s.registers 2 = scRead ∧ s.registers 4 = v)
    (h : Handles s.kernel.spaces.memory fs (.read v numChar fileID) bytes r m' fs')
    (respects : Respects s.kernel.spaces fs i a (.read v numChar fileID) r) :
    (s.fill v bytes).kernel.spaces.memory = m' ∧ Moves s (s.fill v bytes) i (.fill v bytes) := by
  refine ⟨h.eq_store.symm, fill_moves sound run reads ?_⟩
  intro j b running there k bound
  obtain rfl := Option.some.inj (run.symm.trans running)
  obtain rfl := Option.some.inj (live.symm.trans there)
  exact h.mapped respects bound

/-- What `Load` and `Execute` leave. -/
theorem execute_kernel (s : Machine) (i : ℕ) : (s.execute i).kernel = s.kernel ∧ (s.execute i).trapped = s.trapped ∧
    (s.execute i).userRegisters = s.userRegisters := by
  unfold execute
  split <;> exact ⟨rfl, rfl, rfl⟩

theorem execute_some {a : AddrSpace} (live : s.kernel.spaces.space i = some a) :
    s.execute i = { s with registers := initRegisters a.numPages, pageTable := some i } := by
  unfold execute
  rw [live]

/-- A call of `Load` for an executable that could be opened does not return FALSE. -/
theorem load_isSome {m m' : Memory} {exe : Executable} {loaded : Option AddrSpace} (run : AddrSpace.load m (some exe) = some (loaded, m')) :
    ∃ a, loaded = some a := by
  unfold AddrSpace.load at run
  simp only at run
  split_ifs at run
  obtain ⟨⟨table, m₁⟩, -, run⟩ := Option.bind_eq_some_iff.1 run
  obtain ⟨⟨a, m₂⟩, -, run⟩ := Option.bind_eq_some_iff.1 run
  exact ⟨a, (Prod.mk.inj (Option.some.inj run)).1.symm⟩

/-- The thread of program `i` has called `Load`, and `Execute` if it returned TRUE. -/
structure Starts (s s' : Machine) (i : ℕ) (exe : Option Executable) : Prop where
  fresh : s.kernel.spaces.space i = none
  load : s.kernel.spaces.load i exe = some s'.kernel.spaces
  paid : s'.kernel.Paid
  places : Places s'.kernel
  before : s.kernel.currentThread = .exec i
  current : s'.kernel.currentThread = .exec i
  phase : s'.kernel.phase = .running
  trapped : s'.trapped = s.trapped
  userRegisters : s'.userRegisters = s.userRegisters
  execute : ∀ a, s'.kernel.spaces.space i = some a → s'.registers = initRegisters a.numPages ∧ s'.pageTable = some i

theorem starts_of_load {exe : Option Executable} (sound : s.Sound) (current : s.kernel.currentThread = .exec i)
    (next : s.life (.load exe) = some s') : Starts s s' i exe := by
  obtain ⟨k, step, done⟩ := Option.map_eq_some_iff.1 next
  have paid := sound.paid.step step
  have places := sound.loaded.step sound.paid (fun _ => Mp2.Event.noConfusion) step
  cases (Mp2.Kernel.step_inv step).2 with
  | load i' _ spaces current' here load =>
    obtain rfl := ThreadId.exec.inj (current'.symm.trans current)
    have fresh : s.kernel.spaces.space i' = none := by
      have agree := sound.loaded i'
      rw [← current, here.2] at agree
      simpa [agrees] using agree
    generalize keq : ({ s.kernel.setPlace (.exec i') (if (spaces.space i').isSome then .running else .returned) with spaces := spaces } : Mp2.Kernel) = k
      at done paid places
    have kcurrent : k.currentThread = .exec i' := by
      rw [← keq]
      exact current
    have done : ({ s with kernel := k } : Machine).execute i' = s' := by
      rw [kcurrent] at done
      exact done
    obtain ⟨kernel, trapped, userRegisters⟩ := execute_kernel ({ s with kernel := k } : Machine) i'
    rw [done] at kernel trapped userRegisters
    have kernel : s'.kernel = k := kernel
    refine ⟨fresh, ?_, kernel ▸ paid, kernel ▸ places, current, kernel ▸ kcurrent, ?_, trapped, userRegisters, fun a live => ?_⟩
    · rw [kernel, ← keq]
      exact load
    · rw [kernel, ← keq]
      exact here.1
    · rw [kernel] at live
      rw [← done, execute_some (s := { s with kernel := k }) live]
      exact ⟨rfl, rfl⟩

namespace Starts

variable {exe : Option Executable} (starts : Starts s s' i exe)

include starts

theorem other (ne : j ≠ i) : s'.kernel.spaces.space j = s.kernel.spaces.space j := space_load_of_ne starts.load ne

theorem sound (sound : s.Sound) : s'.Sound := by
  refine ⟨starts.paid, starts.places, fun j _ at' live => ?_, fun j switched => ?_, fun j absent => ?_⟩
  · obtain rfl := ThreadId.exec.inj (at'.symm.trans starts.current)
    obtain ⟨a, live⟩ := Option.isSome_iff_exists.1 live
    exact (starts.execute a live).2
  · rw [starts.phase] at switched
    cases switched
  · rw [starts.trapped]
    by_cases same : j = i
    · exact sound.calm j (same ▸ starts.fresh)
    · exact sound.calm j (starts.other same ▸ absent)

/-- The registers of the other programs are in their threads. -/
theorem away (ne : j ≠ i) : s'.registersOf j = s.registersOf j := by
  have elsewhere : ThreadId.exec i ≠ .exec j := fun eq => ne (ThreadId.exec.inj eq).symm
  rw [registersOf_away (s := s) fun both => elsewhere (starts.before.symm.trans both.1),
    registersOf_away fun both => elsewhere (starts.current.symm.trans both.1), starts.userRegisters]

/-- The state of a program at its start. -/
theorem view_self {a : AddrSpace} (sound : s.Sound) (live : s'.kernel.spaces.space i = some a) :
    s'.view i = some ⟨initRegisters a.numPages, imageOf a s'.kernel.spaces.memory, none⟩ := by
  have awake : s'.kernel.phase ≠ .switched := by
    rw [starts.phase]
    exact Phase.noConfusion
  unfold view
  rw [live, Option.map_some, registersOf_here starts.current awake, (starts.execute a live).1, starts.trapped, sound.calm i starts.fresh]

end Starts

/-- **A program starts** as its file says. -/
theorem load_moves {exe : Option Executable} (sound : s.Sound) (proper : s.Proper (.life (.load exe))) (current : s.kernel.currentThread = .exec i)
    (next : s.life (.load exe) = some s') : Moves s s' i (.start exe) := by
  have starts := starts_of_load sound current next
  have before : s.view i = none := by
    unfold view
    rw [starts.fresh]
    rfl
  have load := starts.load
  unfold Spaces.load at load
  rw [starts.fresh] at load
  obtain ⟨⟨loaded, m⟩, run, put⟩ := Option.map_eq_some_iff.1 load
  have memory : s'.kernel.spaces.memory = m := by
    rw [← put]
    rfl
  have space : s'.kernel.spaces.space i = loaded := by
    rw [← put]
    exact Spaces.put_space_self ..
  cases exe with
  | none =>
    obtain ⟨rfl, rfl⟩ := Prod.mk.inj (Option.some.inj run)
    refine ⟨starts.sound sound, ?_, fun j ne => ?_⟩
    · rw [before]
      unfold view
      rw [space]
      rfl
    · unfold view
      rw [starts.other ne, starts.away ne, starts.trapped, memory]
  | some exe =>
    obtain ⟨a, rfl⟩ := load_isSome run
    have able : Loadable s.kernel.spaces.memory exe := proper
    obtain ⟨pages, -, placed⟩ := able.loaded run
    refine ⟨starts.sound sound, ?_, fun j ne => ?_⟩
    · rw [before, starts.view_self sound space, memory, able.image run, pages]
      rfl
    · refine view_other starts.paid ne space (starts.other ne) (fun x outside => ?_) (starts.away ne) (by rw [starts.trapped])
      rw [memory]
      exact placed.outside x outside

/-! ## Every interleaving -/

theorem sound_initial (n : ℕ) (execExit : Bool) {memory : Memory} (free : memory.frameTableStatus = fun _ => false) :
    (initial n execExit memory).Sound := by
  refine ⟨?_, fun i => rfl, fun i _ current => ?_, fun i switched => ?_, fun i _ => rfl⟩
  · exact ⟨Mp2.Kernel.shaped_initial n execExit _, Spaces.sound_empty free fun _ => rfl, fun i => iff_of_true rfl (Nat.zero_le i),
      fun i _ => Spaces.holds_of_none rfl⟩
  · cases current
  · cases switched

/-- **What each step moves**: the program whose event it is, and no other. -/
theorem step_moves {e : MachineEvent} (sound : s.Sound) (proper : s.Proper e) (next : s.step e = some s') :
    (∃ i ev, s.emit e = some (i, ev) ∧ Moves s s' i ev) ∨ s.emit e = none ∧ s'.Sound ∧ s'.view = s.view := by
  obtain ⟨-, next⟩ := Option.ite_none_left_eq_some.1 next
  cases e with
  | life e =>
    cases e with
    | load exe =>
      cases current : s.kernel.currentThread with
      | exec i => exact .inl ⟨i, _, by simp only [emit, current], load_moves sound proper current next⟩
      | main | postal =>
        obtain ⟨k, step, -⟩ := Option.map_eq_some_iff.1 next
        cases (Mp2.Kernel.step_inv step).2 with
        | load i _ spaces current' =>
          rw [current] at current'
          cases current'
    | exec | begin | access | yield | block | wake | finish | dispatch | check =>
      exact .inr ⟨rfl, life_kept sound (fun _ => Mp2.Event.noConfusion) next⟩
  | instruction =>
    obtain ⟨i, run, next⟩ := Option.bind_eq_some_iff.1 next
    obtain ⟨free, next⟩ := Option.ite_none_right_eq_some.1 next
    exact .inl ⟨i, _, by simp only [emit, run, Option.map_some], instruction_moves sound run free next⟩
  | answer status =>
    obtain ⟨i, run, next⟩ := Option.bind_eq_some_iff.1 next
    obtain ⟨trap, next⟩ := Option.ite_none_right_eq_some.1 next
    exact .inl ⟨i, _, by simp only [emit, run, Option.map_some], answer_moves sound run trap next⟩
  | fill addr bytes =>
    obtain ⟨i, run, next⟩ := Option.bind_eq_some_iff.1 next
    obtain ⟨reads, next⟩ := Option.ite_none_right_eq_some.1 next
    obtain rfl := Option.some.inj next
    exact .inl ⟨i, _, by simp only [emit, run, Option.map_some], fill_moves sound run reads proper⟩

theorem components (execExit : Bool) : Components (machine execExit) Proper emit Sound view Process.step := by
  constructor
  · intro s e s' sound proper next
    obtain ⟨i, ev, -, moves⟩ | ⟨-, kept, -⟩ := step_moves sound proper next
    · exact moves.sound
    · exact kept
  · intro s e s' t ev sound proper next emits
    obtain ⟨i, ev', emits', moves⟩ | ⟨none, -⟩ := step_moves sound proper next
    · obtain ⟨rfl, rfl⟩ := Prod.mk.inj (Option.some.inj (emits.symm.trans emits'))
      exact moves.owner
    · rw [none] at emits
      cases emits
  · intro s e s' t sound proper next other
    obtain ⟨i, ev, emits, moves⟩ | ⟨-, -, same⟩ := step_moves sound proper next
    · apply moves.others
      rintro rfl
      exact other ev emits
    · rw [same]

/-- **Isolation.** After any run from the start, every program is where a private run over its own events leaves it. -/
theorem isolation {execExit : Bool} {log : List (ℕ × ProcessEvent)} (start : (machine execExit).init s)
    (run : Run (machine execExit) Proper emit s log s') (i : ℕ) :
    (mine i log).foldlM Process.step none = some (s'.view i) := by
  obtain ⟨n, memory, rfl, free⟩ := start
  exact (components execExit).private_run run (sound_initial n execExit free) i

/-- `ADDIU r2, r0, 42`, `SW r2, 512(r0)` and `SYSCALL`: the call is `SC_Add`. -/
def adder : Executable :=
  ⟨⟨noffMagic, ⟨0, 0, 12⟩, ⟨0, 0, 0⟩, ⟨0, 0, 0⟩, ⟨0, 0, 0⟩⟩, [0x2a, 0, 2, 0x24, 0, 2, 2, 0xac, 0x0c, 0, 0, 0]⟩

theorem loadable_adder (m : Memory) : Loadable m adder := by
  refine ⟨NoffHeader.fits_of_clear rfl (by decide +kernel) (by decide +kernel), by unfold Executable.LongEnough; decide +kernel, fun seg mem => .inl ?_⟩
  have aligned : ∀ seg ∈ adder.header.segments, seg.virtualAddr.toNat % pageSize = 0 := by decide +kernel
  exact aligned seg mem

/-- Two such programs, and the processor goes back and forth between them. -/
def adders : List MachineEvent :=
  [.life .exec, .life .exec, .life .finish, .life .dispatch, .life .check, .life .begin, .life .block,
    .life .dispatch, .life .check, .life .begin, .life (.load (some adder)), .instruction, .life .yield,
    .life .check, .life .begin, .life (.load (some adder)), .instruction, .instruction, .life .yield,
    .life .check, .instruction, .instruction, .answer 0, .life .yield, .life .check, .instruction, .answer 0]

theorem adders_isSome : (adders.foldlM step (initial 2 true (Spaces.start : Spaces ℕ).memory)).isSome := by decide +kernel

/-- In the end `SC_Add` has left its sum in register 2 of the second program. -/
theorem isolation_adders : ∃ s log, Run (machine true) Proper emit (initial 2 true (Spaces.start : Spaces ℕ).memory) log s ∧
    (mine 1 log).foldlM Process.step none = some (s.view 1) ∧ (s.view 1).map (fun p => p.registers 2) = some 0 := by
  have done := (Option.some_get adders_isSome).symm
  obtain ⟨log, run⟩ : ∃ log, Run (machine true) Proper emit _ log _ := Run.of_events step (fun _ _ _ next => next) adders
    (fun s e mem => by
      simp only [adders, List.mem_cons, List.not_mem_nil, or_false] at mem
      rcases mem with h | h | h | h | h | h | h | h | h | h | rfl | h | h | h | h | rfl | h | h | h | h | h | h | h | h | h | h | h
      all_goals first | exact loadable_adder _ | (subst h; trivial)) done
  exact ⟨_, log, run, isolation ⟨2, _, rfl, rfl⟩ run 1, by decide +kernel⟩

end Machine

end Nachos.User
