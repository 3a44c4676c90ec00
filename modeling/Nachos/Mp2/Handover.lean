import Nachos.Mp2.Lifecycle

/-!
# Threads hand over the processor

What each step does, said once. A step moves one thread from one place to another; seen through a
function of the places, most steps move nothing. A thread that is to be destroyed is in the
`Sleep` of its `Finish`.
-/

namespace Nachos.Mp2

namespace Kernel

variable {k k' : Kernel} {t : ThreadId} {p : Place} {i : ℕ} {e : Event} {α : Type} {f : Place → α}

theorem setPlace_self : (k.setPlace t p).place t = p := Function.update_self ..

theorem setPlace_of_ne {u : ThreadId} (ne : u ≠ t) : (k.setPlace t p).place u = k.place u := Function.update_of_ne ne ..

/-- What a function of the places shows of the programs' threads. -/
def view (f : Place → α) (k : Kernel) (i : ℕ) : α := f (k.place (.exec i))

theorem view_setPlace_exec : (k.setPlace (.exec i) p).view f = Function.update (k.view f) i (f p) := by
  funext j
  by_cases same : j = i
  · rw [same, Function.update_self, view, setPlace_self]
  · have ne : ThreadId.exec j ≠ .exec i := fun eq => same (ThreadId.exec.inj eq)
    rw [Function.update_of_ne same, view, setPlace_of_ne ne, view]

theorem view_setPlace_same (h : f p = f (k.place t)) : (k.setPlace t p).view f = k.view f := by
  funext j
  by_cases same : ThreadId.exec j = t
  · rw [view, same, setPlace_self, h, ← same, view]
  · rw [view, setPlace_of_ne same, view]

theorem view_setPlace_kernel (h : t.isExec = false) : (k.setPlace t p).view f = k.view f := by
  funext j
  have ne : ThreadId.exec j ≠ t := by
    rintro rfl
    cases h
  rw [view, setPlace_of_ne ne, view]

/-! ## The steps -/

/-- What a step needs and what it leaves. -/
inductive Step (k : Kernel) : Event → Kernel → Prop
  | exec (here : k.At .running) : Step k .exec
      { k.setPlace (.exec k.started) .forked with
        readyList := k.readyList ++ [.exec k.started]
        started := k.started + 1 }
  | beginExec (i : ℕ) (current : k.currentThread = .exec i) (here : k.At .beginning) : Step k .begin
      { k.setPlace (.exec i) .begun with
        execRunningNum := if k.execExit then k.execRunningNum + 1 else k.execRunningNum }
  | beginPostal (here : k.At .beginning) (kernel : k.currentThread.isExec = false) :
      Step k .begin (k.setPlace k.currentThread .running)
  | load (i : ℕ) (exe : Option Executable) (spaces : Spaces ℕ) (current : k.currentThread = .exec i) (here : k.At .begun)
      (load : k.spaces.load i exe = some spaces) : Step k (.load exe)
      { k.setPlace (.exec i) (if (spaces.space i).isSome then .running else .returned) with spaces := spaces }
  | access (x : Access) (spaces : Spaces ℕ) (here : k.At .running) (sound : k.spaces.Sound → spaces.Sound)
      (holds : spaces.holds = k.spaces.holds) : Step k (.access x) { k with spaces := spaces }
  | stay : Step k .yield k
  | yield {k' : Kernel} (next : ThreadId) (rest : List ThreadId) (awake : k.phase = .running)
      (run : ({ k with readyList := rest ++ [k.currentThread] } : Kernel).run next false = some k') : Step k .yield k'
  | block (here : k.At .running) : Step k .block { k.setPlace k.currentThread .blocked with phase := .sleeping false }
  | wake (t : ThreadId) (phase : k.phase ≠ .switched) (blocked : k.place t = .blocked) : Step k (.wake t)
      { k.setPlace t .running with readyList := k.readyList ++ [t] }
  | finishExec (i : ℕ) (current : k.currentThread = .exec i) (counts : k.execExit = true)
      (here : k.At .running ∨ k.At .returned) : Step k .finish
      { k.setPlace (.exec i) .finished with
        execRunningNum := k.execRunningNum - 1
        halted := decide (k.execRunningNum - 1 = 0)
        phase := .sleeping true }
  | finish (kernel : ¬ (k.execExit = true ∧ k.currentThread.isExec = true)) (here : k.At .running ∨ k.At .returned) :
      Step k .finish { k.setPlace k.currentThread .finished with phase := .sleeping true }
  | dispatch {k' : Kernel} (finishing : Bool) (next : ThreadId) (rest : List ThreadId) (asleep : k.phase = .sleeping finishing)
      (run : ({ k with readyList := rest } : Kernel).run next finishing = some k') : Step k .dispatch k'
  | checkNone (none : k.toBeDestroyed = none) : Step k .check { k with phase := .running }
  | checkSome (t : ThreadId) (dying : k.toBeDestroyed = some t) : Step k .check
      { k.setPlace t .deleted with toBeDestroyed := none, phase := .running }

theorem begin_inv (h : k.begin = some k') : Step k .begin k' := by
  obtain ⟨here, h⟩ := Option.ite_none_right_eq_some.1 h
  cases current : k.currentThread with
  | main | postal =>
    rw [current] at h
    obtain rfl := Option.some.inj h
    have kernel : k.currentThread.isExec = false := by rw [current]; rfl
    exact current ▸ .beginPostal here kernel
  | exec i =>
    rw [current] at h
    obtain rfl := Option.some.inj h
    exact .beginExec i current here

theorem load_inv {exe : Option Executable} (h : k.load exe = some k') : Step k (.load exe) k' := by
  unfold load at h
  split at h
  · rename_i i current
    obtain ⟨here, h⟩ := Option.ite_none_right_eq_some.1 h
    obtain ⟨spaces, load, rfl⟩ := Option.map_eq_some_iff.1 h
    exact .load i exe spaces current here load
  · cases h

theorem access_inv {x : Access} (h : k.access x = some k') : Step k (.access x) k' := by
  unfold access at h
  split at h
  · obtain ⟨here, h⟩ := Option.ite_none_right_eq_some.1 h
    cases x with
    | readMem addr size =>
      obtain ⟨spaces, read, rfl⟩ := Option.map_eq_some_iff.1 h
      obtain ⟨sound, holds⟩ := Spaces.readMem_kept read
      exact .access _ spaces here sound holds
    | writeMem addr size value =>
      obtain ⟨spaces, written, rfl⟩ := Option.map_eq_some_iff.1 h
      obtain ⟨sound, holds⟩ := Spaces.writeMem_kept written
      exact .access _ spaces here sound holds
    | store addr bytes =>
      obtain rfl := Option.some.inj h
      exact .access _ _ here (fun sound => sound.store addr bytes) rfl
  · cases h

theorem yield_inv (h : k.yield = some k') : Step k .yield k' := by
  obtain ⟨here, h⟩ := Option.ite_none_right_eq_some.1 h
  split at h
  · obtain rfl := Option.some.inj h
    exact .stay
  · exact .yield _ _ (here.elim And.left And.left) h

theorem finish_inv (h : k.finish = some k') : Step k .finish k' := by
  obtain ⟨may, h⟩ := Option.ite_none_right_eq_some.1 h
  have here : k.At .running ∨ k.At .returned := by
    unfold finishes at may
    split at may
    · exact .inl (of_decide_eq_true may).1
    · cases may
    · exact of_decide_eq_true may
  split_ifs at h with counts
  · obtain rfl := Option.some.inj h
    cases current : k.currentThread with
    | main | postal =>
      rw [current] at counts
      cases counts.2
    | exec i => exact .finishExec i current counts.1 here
  · obtain rfl := Option.some.inj h
    exact .finish counts here

theorem dispatch_inv (h : k.dispatch = some k') : Step k .dispatch k' := by
  unfold dispatch at h
  split at h
  · rename_i finishing next rest asleep ready
    exact .dispatch finishing next rest asleep h
  · cases h

theorem check_inv (h : k.checkToBeDestroyed = some k') : Step k .check k' := by
  obtain ⟨-, h⟩ := Option.ite_none_right_eq_some.1 h
  split at h
  · rename_i none
    obtain rfl := Option.some.inj h
    exact .checkNone none
  · rename_i t dying
    obtain ⟨-, h⟩ := Option.ite_none_left_eq_some.1 h
    obtain rfl := Option.some.inj h
    exact .checkSome t dying

/-- **What each step does.** -/
theorem step_inv (h : k.step e = some k') : k.halted = false ∧ Step k e k' := by
  obtain ⟨on, h⟩ := Option.ite_none_left_eq_some.1 h
  refine ⟨Bool.eq_false_of_not_eq_true on, ?_⟩
  cases e with
  | exec =>
    obtain ⟨⟨here, -⟩, h⟩ := Option.ite_none_right_eq_some.1 h
    obtain rfl := Option.some.inj h
    exact .exec here
  | begin => exact begin_inv h
  | load exe => exact load_inv h
  | access x => exact access_inv h
  | yield => exact yield_inv h
  | block =>
    obtain ⟨⟨here, -⟩, h⟩ := Option.ite_none_right_eq_some.1 h
    obtain rfl := Option.some.inj h
    exact .block here
  | wake t =>
    obtain ⟨⟨phase, blocked⟩, h⟩ := Option.ite_none_right_eq_some.1 h
    obtain rfl := Option.some.inj h
    exact .wake t phase blocked
  | finish => exact finish_inv h
  | dispatch => exact dispatch_inv h
  | check => exact check_inv h

/-- A thread that is switched to is in `Begin` if it is new. -/
theorem run_inv {next : ThreadId} {finishing : Bool} (h : k.run next finishing = some k') :
    k' = { k.setPlace next (if k.place next = .forked then .beginning else k.place next) with
      toBeDestroyed := if finishing then some k.currentThread else k.toBeDestroyed
      currentThread := next
      phase := .switched } := by
  obtain ⟨-, h⟩ := Option.ite_none_left_eq_some.1 h
  exact (Option.some.inj h).symm

/-- A view in which a forked thread looks as one in `Begin` does not change at a switch. -/
theorem run_view {next : ThreadId} {finishing : Bool} (h : k.run next finishing = some k')
    (same : f .beginning = f .forked) : k'.view f = k.view f := by
  obtain rfl := run_inv h
  refine view_setPlace_same ?_
  split_ifs with new
  · rw [new, same]
  · rfl

/-! ## Finished threads -/

/-- A thread that is to be destroyed has finished. -/
structure Shaped (k : Kernel) : Prop where
  dying : ∀ t, k.toBeDestroyed = some t → k.place t = .finished
  pending : k.toBeDestroyed ≠ none → k.phase = .switched
  asleep : k.phase = .sleeping true → k.place k.currentThread = .finished

theorem shaped_of_none (none : k.toBeDestroyed = none) (awake : k.phase ≠ .sleeping true) : k.Shaped := by
  constructor
  · intro t dying
    rw [none] at dying
    cases dying
  · intro some
    exact (some none).elim
  · intro asleep
    exact (awake asleep).elim

theorem Shaped.nobody (h : k.Shaped) (phase : k.phase ≠ .switched) : k.toBeDestroyed = none := by
  by_contra some
  exact phase (h.pending some)

theorem Shaped.nobody_of_at (h : k.Shaped) (here : k.At p) : k.toBeDestroyed = none := by
  apply h.nobody
  rw [here.1]
  exact Phase.noConfusion

theorem At.awake (here : k.At p) : k.phase ≠ .sleeping true := by
  rw [here.1]
  exact Phase.noConfusion

/-- `Run` hands over from a thread that has finished or from one that is not to be destroyed. -/
theorem run_shaped {next : ThreadId} {finishing : Bool} (none : k.toBeDestroyed = none)
    (finished : finishing = true → k.place k.currentThread = .finished) (h : k.run next finishing = some k') :
    k'.Shaped := by
  obtain rfl := run_inv h
  constructor
  · intro t dying
    cases finishing with
    | false =>
      have dying : k.toBeDestroyed = some t := dying
      rw [none] at dying
      cases dying
    | true =>
      have ended := finished rfl
      obtain rfl := Option.some.inj dying
      change (k.setPlace next _).place k.currentThread = .finished
      by_cases same : k.currentThread = next
      · rw [← same, setPlace_self, ended, if_neg Place.noConfusion]
      · rw [setPlace_of_ne same]
        exact ended
  · exact fun _ => rfl
  · intro asleep
    cases asleep

/-- A thread has gone to sleep for ever. -/
theorem shaped_of_finished (none : k.toBeDestroyed = none) (finished : k.place k.currentThread = .finished) : k.Shaped := by
  refine ⟨fun t dying => ?_, fun some => (some none).elim, fun _ => finished⟩
  rw [none] at dying
  cases dying

theorem Shaped.step (h : k.Shaped) (hs : k.step e = some k') : k'.Shaped := by
  cases (step_inv hs).2 with
  | exec here | beginExec _ _ here | beginPostal here | load _ _ _ _ here | access _ _ here =>
    exact shaped_of_none (h.nobody_of_at here) here.awake
  | stay => exact h
  | yield next rest awake run =>
    have none : k.toBeDestroyed = none := h.nobody (by rw [awake]; exact Phase.noConfusion)
    have idle : false = true → k.place k.currentThread = .finished := fun impossible => by cases impossible
    exact run_shaped (k := { k with readyList := rest ++ [k.currentThread] }) none idle run
  | block here => exact shaped_of_none (h.nobody_of_at here) fun asleep => by cases asleep
  | wake t phase blocked =>
    by_cases asleep : k.phase = .sleeping true
    · have finished := h.asleep asleep
      have ne : k.currentThread ≠ t := by
        intro same
        rw [same, blocked] at finished
        cases finished
      exact shaped_of_finished (h.nobody phase) ((setPlace_of_ne ne).trans finished)
    · exact shaped_of_none (h.nobody phase) asleep
  | finishExec i current _ here =>
    refine shaped_of_finished (here.elim h.nobody_of_at h.nobody_of_at) ?_
    change (k.setPlace (.exec i) .finished).place k.currentThread = .finished
    rw [current, setPlace_self]
  | finish _ here => exact shaped_of_finished (here.elim h.nobody_of_at h.nobody_of_at) setPlace_self
  | dispatch finishing next rest asleep run =>
    have none : k.toBeDestroyed = none := h.nobody (by rw [asleep]; exact Phase.noConfusion)
    refine run_shaped (k := { k with readyList := rest }) none (fun finished => h.asleep ?_) run
    rw [asleep, finished]
  | checkNone none => exact shaped_of_none none Phase.noConfusion
  | checkSome t dying => exact shaped_of_none rfl Phase.noConfusion

theorem shaped_initial (n : ℕ) (execExit : Bool) (spaces : Spaces ℕ) : (initial n execExit spaces).Shaped :=
  shaped_of_none rfl Phase.noConfusion

end Kernel

end Nachos.Mp2
