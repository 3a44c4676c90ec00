import Nachos.Base.Tally
import Nachos.Mp2.Handover

/-!
# When `Finish` halts the machine

`execRunningNum` counts the threads between the increment in `Begin` and the decrement in
`Finish`. It is zero when every thread that has begun has finished, and the threads that are
still before the increment are not counted.
-/

namespace Nachos.Mp2
open Transition

/-- What the counter sees of a place. -/
def Place.stage : Place → Stage
  | .unborn => .absent
  | .forked | .beginning => .waiting
  | .begun | .running | .blocked | .returned => .active
  | .finished | .deleted => .done

namespace Kernel

variable {k k' : Kernel} {t : ThreadId} {p : Place} {i : ℕ} {e : Event}

def stages (k : Kernel) : ℕ → Stage := k.view Place.stage

def tally (k : Kernel) : Tally := ⟨k.stages, k.started, k.execRunningNum⟩

/-- What a step does to the counter. -/
inductive Effect (k : Kernel) : Event → Kernel → Prop
  | quiet {e : Event} {k' : Kernel} (other : e = .finish → k.currentThread.isExec = false) (tally : k'.tally = k.tally)
      (halted : k'.halted = k.halted) (exit : k'.execExit = k.execExit) : Effect k e k'
  | create {k' : Kernel} (tally : k'.tally = k.tally.create) (halted : k'.halted = k.halted)
      (exit : k'.execExit = k.execExit) : Effect k .exec k'
  | begin {k' : Kernel} (i : ℕ) (waiting : k.stages i = .waiting) (tally : k'.tally = k.tally.begin i)
      (halted : k'.halted = k.halted) (exit : k'.execExit = k.execExit) : Effect k .begin k'
  | finish {k' : Kernel} (i : ℕ) (current : k.currentThread = .exec i) (active : k.stages i = .active)
      (tally : k'.tally = k.tally.finish i) (halted : k'.halted = decide (k'.execRunningNum = 0))
      (exit : k'.execExit = k.execExit) : Effect k .finish k'

/-- A thread that moves within its stage leaves the counter alone. -/
theorem tally_setPlace (h : p.stage = (k.place t).stage) :
    (⟨(k.setPlace t p).stages, k.started, k.execRunningNum⟩ : Tally) = k.tally :=
  congrArg (Tally.mk · k.started k.execRunningNum) (view_setPlace_same h)

theorem run_tally {next : ThreadId} {finishing : Bool} (h : k.run next finishing = some k') :
    k'.tally = k.tally ∧ k'.halted = k.halted ∧ k'.execExit = k.execExit := by
  have stages : k'.stages = k.stages := run_view h rfl
  obtain rfl := run_inv h
  exact ⟨congrArg (Tally.mk · k.started k.execRunningNum) stages, rfl, rfl⟩

theorem step_effect (shaped : k.Shaped) (counts : k.execExit = true) (h : k.step e = some k') :
    k.halted = false ∧ Effect k e k' := by
  obtain ⟨on, did⟩ := step_inv h
  refine ⟨on, ?_⟩
  cases did with
  | exec => exact .create (congrArg (Tally.mk · (k.started + 1) k.execRunningNum) view_setPlace_exec) rfl rfl
  | beginExec i current here =>
    have waiting : k.stages i = .waiting := by
      rw [stages, view, ← current, here.2]
      rfl
    refine .begin i waiting ?_ rfl rfl
    rw [counts]
    exact congrArg (Tally.mk · k.started (k.execRunningNum + 1)) view_setPlace_exec
  | beginPostal _ kernel =>
    refine .quiet (fun eq => by cases eq) ?_ rfl rfl
    exact congrArg (Tally.mk · k.started k.execRunningNum) (view_setPlace_kernel kernel)
  | load i exe spaces current here =>
    refine .quiet (fun eq => by cases eq) (tally_setPlace ?_) rfl rfl
    rw [← current, here.2]
    split_ifs <;> rfl
  | access | stay | checkNone => exact .quiet (fun eq => by cases eq) rfl rfl rfl
  | yield _ _ _ run | dispatch _ _ _ _ run =>
    obtain ⟨tally, halted, exit⟩ := run_tally run
    exact .quiet (fun eq => by cases eq) tally halted exit
  | block here =>
    refine .quiet (fun eq => by cases eq) (tally_setPlace ?_) rfl rfl
    rw [here.2]
    rfl
  | wake t _ blocked =>
    refine .quiet (fun eq => by cases eq) (tally_setPlace ?_) rfl rfl
    rw [blocked]
    rfl
  | finishExec i current _ here =>
    have active : k.stages i = .active := by
      rw [stages, view, ← current]
      rcases here with running | returned
      · rw [running.2]
        rfl
      · rw [returned.2]
        rfl
    exact .finish i current active (congrArg (Tally.mk · k.started (k.execRunningNum - 1)) view_setPlace_exec) rfl rfl
  | finish other _ =>
    have kernel : k.currentThread.isExec = false := Bool.eq_false_of_not_eq_true fun yes => other ⟨counts, yes⟩
    refine .quiet (fun _ => kernel) ?_ rfl rfl
    exact congrArg (Tally.mk · k.started k.execRunningNum) (view_setPlace_kernel kernel)
  | checkSome t dying =>
    refine .quiet (fun eq => by cases eq) (tally_setPlace ?_) rfl rfl
    rw [shaped.dying t dying]
    rfl

/-! ## Halting -/

/-- Every thread that `Exec` has created has called `Finish`, and there is one. -/
def AllFinished (k : Kernel) : Prop :=
  0 < k.started ∧ ∀ i < k.started, k.place (.exec i) = .finished ∨ k.place (.exec i) = .deleted

/-- When a thread calls `Finish`, another one has begun and not finished, or every thread that has
been created has come to the increment in `Begin`. -/
def Clean (k : Kernel) : Event → Prop
  | .finish => ∀ i, k.currentThread = .exec i → k.tally.Covered i
  | _ => True

theorem stage_eq_done_iff : p.stage = .done ↔ p = .finished ∨ p = .deleted := by
  cases p <;> simp [Place.stage]

theorem over_iff : k.tally.Over ↔ k.AllFinished := by
  constructor
  · rintro ⟨some, done⟩
    exact ⟨some, fun i hi => stage_eq_done_iff.1 (done i hi)⟩
  · rintro ⟨some, done⟩
    exact ⟨some, fun i hi => stage_eq_done_iff.2 (done i hi)⟩

/-- The counter is right in every run with `-ee`. -/
structure Counted (k : Kernel) : Prop where
  shaped : k.Shaped
  counts : k.execExit = true
  sound : k.tally.Sound

theorem Effect.execExit (effect : Effect k e k') : k'.execExit = k.execExit := by
  cases effect with
  | quiet _ _ _ exit | create _ _ exit | begin _ _ _ _ exit | finish _ _ _ _ _ exit => exact exit

theorem Effect.sound (h : k.tally.Sound) (effect : Effect k e k') : k'.tally.Sound := by
  cases effect with
  | quiet _ tally _ _ => exact tally ▸ h
  | create tally _ _ => exact tally ▸ h.create
  | begin i waiting tally _ _ => exact tally ▸ h.begin waiting
  | finish i _ active tally _ _ => exact tally ▸ h.finish active

theorem Counted.step (h : k.Counted) (hs : k.step e = some k') : k'.Counted where
  shaped := h.shaped.step hs
  counts := (step_effect h.shaped h.counts hs).2.execExit.trans h.counts
  sound := (step_effect h.shaped h.counts hs).2.sound h.sound

/-- **One step.** As long as the machine is halted exactly when all is over, a step keeps it so
exactly if it is clean. -/
theorem Counted.halted_iff (h : k.Counted) (so : k.halted = true ↔ k.tally.Over) (hs : k.step e = some k') :
    (k'.halted = true ↔ k'.tally.Over) ↔ k.Clean e := by
  obtain ⟨on, effect⟩ := step_effect h.shaped h.counts hs
  have going : ¬ k.tally.Over := fun ended => Bool.false_ne_true (on.symm.trans (so.2 ended))
  have off {k' : Kernel} (halted : k'.halted = k.halted) : ¬ k'.halted = true := by
    rw [halted, on]
    exact Bool.false_ne_true
  cases effect with
  | quiet other tally halted _ =>
    refine iff_of_true (iff_of_false (off halted) (tally ▸ going)) ?_
    cases e with
    | finish =>
      intro i current
      have kernel := other rfl
      rw [current] at kernel
      cases kernel
    | _ => trivial
  | create tally halted _ =>
    refine iff_of_true (iff_of_false (off halted) ?_) trivial
    rw [tally]
    exact Tally.not_over_create
  | begin i waiting tally halted _ =>
    refine iff_of_true (iff_of_false (off halted) ?_) trivial
    rw [tally]
    exact h.sound.not_over_begin waiting
  | finish i current active tally halted _ =>
    have zero : k'.halted = true ↔ (k.tally.finish i).count = 0 := by
      rw [halted, ← tally]
      exact decide_eq_true_iff
    rw [zero, tally, h.sound.zero_iff_over active]
    constructor
    · intro covered j same
      rw [current] at same
      obtain rfl := ThreadId.exec.inj same
      exact covered
    · intro clean
      exact clean i current

theorem Counted.of_reach {allowed : Kernel → Event → Prop} (h : Reach (lifecycle true) allowed k) : k.Counted := by
  refine h.invariant Counted ?_ ?_
  · rintro k ⟨n, spaces, rfl, -⟩
    exact ⟨shaped_initial n true spaces, rfl, Tally.sound_start⟩
  · intro k e k' counted _ hs
    exact counted.step hs

/-- **Halting with `-ee`.** In a run whose calls of `Finish` are clean, the machine is halted exactly
when every thread that `Exec` has created has finished; and a step keeps this exactly if it is clean. -/
theorem halt_iff_finished (h : Reach (lifecycle true) Clean k) :
    (k.halted = true ↔ k.AllFinished) ∧
      ∀ e k', k.step e = some k' → ((k'.halted = true ↔ k'.AllFinished) ↔ k.Clean e) := by
  have so : k.halted = true ↔ k.tally.Over := by
    induction h with
    | init start =>
      obtain ⟨n, spaces, rfl, -⟩ := start
      exact iff_of_false Bool.false_ne_true Tally.not_over_start
    | step reach clean hs ih => exact ((Counted.of_reach reach).halted_iff ih hs).2 clean
  refine ⟨so.trans over_iff, fun e k' hs => ?_⟩
  rw [← over_iff]
  exact (Counted.of_reach h).halted_iff so hs

/-- A test for `Clean`. -/
def clean (k : Kernel) : Event → Bool
  | .finish =>
    match k.currentThread with
    | .exec i => (∃ j < k.started, j ≠ i ∧ k.stages j = .active) ∨ ∀ j < k.started, k.stages j ≠ .waiting
    | _ => true
  | _ => true

theorem clean_of_test (test : k.clean e = true) : k.Clean e := by
  cases e with
  | finish =>
    intro i current
    rw [clean, current] at test
    obtain ⟨j, -, ne, active⟩ | none := of_decide_eq_true test
    · exact .inl ⟨j, ne, active⟩
    · exact .inr none
  | _ => trivial

/-- Two programs begin and exit, one after the other. -/
def bothExit : List Event :=
  [.exec, .exec, .finish, .dispatch, .check, .begin, .block, .dispatch, .check, .begin, .load (some Spaces.exits), .access (.readMem 0 4),
    .yield, .check, .begin, .load (some Spaces.exits), .access (.readMem 0 4), .yield, .check, .access (.readMem 8 4), .finish, .dispatch,
    .check, .access (.readMem 8 4), .finish]

theorem bothExit_isSome : (bothExit.foldlM (tested step clean) (initial 2 true Spaces.start)).isSome := by decide +kernel

def afterBoth : Kernel := (bothExit.foldlM (tested step clean) (initial 2 true Spaces.start)).get bothExit_isSome

theorem halt_iff_finished_afterBoth : afterBoth.started = 2 ∧ afterBoth.halted = true ∧ afterBoth.AllFinished := by
  have start : Reach (lifecycle true) Clean (initial 2 true Spaces.start) := .init ⟨2, Spaces.start, rfl, rfl, fun _ => rfl⟩
  have reach : Reach (lifecycle true) Clean afterBoth :=
    start.checked step clean (fun _ _ _ done => done) (fun _ _ => clean_of_test) bothExit (Option.some_get bothExit_isSome).symm
  have halted : afterBoth.halted = true := by decide +kernel
  exact ⟨by decide +kernel, halted, (halt_iff_finished reach).1.1 halted⟩

/-- Of two programs the first one exits before the second one's thread has been switched to. -/
def shortProgram : List Event :=
  [.exec, .exec, .finish, .dispatch, .check, .begin, .block, .dispatch, .check, .begin, .load (some Spaces.exits), .access (.readMem 0 4),
    .access (.readMem 4 4), .access (.readMem 8 4), .finish]

theorem shortProgram_isSome : (shortProgram.foldlM step (initial 2 true Spaces.start)).isSome := by decide +kernel

def shortRun : Kernel := (shortProgram.foldlM step (initial 2 true Spaces.start)).get shortProgram_isSome

theorem halt_too_early : ¬ ∀ k, Reach (lifecycle true) (fun _ _ => True) k → (k.halted = true → k.AllFinished) := by
  intro claim
  have start : Reach (lifecycle true) (fun _ _ => True) (initial 2 true Spaces.start) :=
    .init ⟨2, Spaces.start, rfl, rfl, fun _ => rfl⟩
  have reach : Reach (lifecycle true) (fun _ _ => True) shortRun :=
    start.run step (fun _ _ _ done => done) shortProgram (Option.some_get shortProgram_isSome).symm
  have halted : shortRun.halted = true := by decide +kernel
  have started : 1 < shortRun.started := by decide +kernel
  have waits : shortRun.place (.exec 1) = .forked := by decide +kernel
  have finished := (claim shortRun reach halted).2 1 started
  rw [waits] at finished
  exact absurd finished (by decide)

end Kernel

end Nachos.Mp2
