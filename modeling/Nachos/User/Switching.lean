import Nachos.User.Machine
import Nachos.User.Places

/-!
# Where the state of a program is

While a program runs its registers are in the machine, and the machine has its page table; else
they are in its thread. No step of the scheduler moves a program, as it sees itself.
-/

namespace Nachos.User
open Bytes Transition Nachos.Mp2 Nachos.Mp3

namespace Machine

/-- The registers of program `i`: in the machine from `RestoreUserState` to `SaveUserState`. -/
def registersOf (s : Machine) (i : ℕ) : Registers :=
  if s.kernel.currentThread = .exec i ∧ s.kernel.phase ≠ .switched then s.registers else s.userRegisters i

/-- What there is of program `i`. -/
def view (s : Machine) (i : ℕ) : Option Process :=
  (s.kernel.spaces.space i).map fun a => ⟨s.registersOf i, imageOf a s.kernel.spaces.memory, s.trapped i⟩

/-- While a program runs the machine holds its registers and its page table. -/
structure Sound (s : Machine) : Prop where
  paid : s.kernel.Paid
  loaded : Places s.kernel
  table : ∀ i, s.kernel.phase = .running → s.kernel.currentThread = .exec i → (s.kernel.spaces.space i).isSome → s.pageTable = some i
  fresh : ∀ i, s.kernel.phase = .switched → s.fresh = true → s.kernel.currentThread = .exec i → s.kernel.spaces.space i = none
  calm : ∀ i, s.kernel.spaces.space i = none → s.trapped i = none

variable {s s' : Machine} {k k' : Mp2.Kernel} {i j : ℕ}

theorem registersOf_here (current : s.kernel.currentThread = .exec i) (phase : s.kernel.phase ≠ .switched) :
    s.registersOf i = s.registers := if_pos ⟨current, phase⟩

theorem registersOf_away (away : ¬ (s.kernel.currentThread = .exec i ∧ s.kernel.phase ≠ .switched)) :
    s.registersOf i = s.userRegisters i := if_neg away

/-- A program that is not loaded has no registers that matter. -/
theorem view_congr (spaces : s'.kernel.spaces = s.kernel.spaces) (trapped : s'.trapped = s.trapped)
    (registers : ∀ i, (s.kernel.spaces.space i).isSome → s'.registersOf i = s.registersOf i) : s'.view = s.view := by
  funext i
  unfold view
  rw [spaces, trapped]
  cases live : s.kernel.spaces.space i with
  | none => rfl
  | some a => rw [registers i (by rw [live]; rfl)]

/-! ## The kernel takes and gives the processor -/

theorem saveUserState_userRegisters (s : Machine) (phase : s.kernel.phase ≠ .switched) (i : ℕ) :
    s.saveUserState.userRegisters i = s.registersOf i := by
  unfold saveUserState registersOf
  cases current : s.kernel.currentThread with
  | main | postal => rw [if_neg (by simp)]
  | exec j =>
    dsimp only
    by_cases same : i = j
    · rw [same, Function.update_self, if_pos ⟨rfl, phase⟩]
    · rw [Function.update_of_ne same, if_neg]
      rintro ⟨eq, -⟩
      exact same (ThreadId.exec.inj eq).symm

/-- **`SaveUserState` keeps the registers** of the thread that gives up the processor. -/
theorem registersOf_switch (phase : s.kernel.phase ≠ .switched) (moved : k'.phase = .switched ∨ k' = s.kernel) :
    (s.switch k').registersOf i = s.registersOf i := by
  unfold switch
  split
  · rename_i switched
    rw [← saveUserState_userRegisters s phase i]
    exact registersOf_away fun both => both.2 switched
  · rename_i still
    obtain rfl := moved.resolve_left still
    rfl

theorem restoreUserState_exec (current : s.kernel.currentThread = .exec i) :
    s.restoreUserState = { s with registers := s.userRegisters i, pageTable := some i } := by
  unfold restoreUserState
  rw [current]

/-- **`RestoreUserState` brings them back.** -/
theorem registersOf_switched (sound : s.Sound) (phase : s.kernel.phase = .switched) (current : k'.currentThread = s.kernel.currentThread)
    (running : k'.phase = .running) (live : (s.kernel.spaces.space i).isSome) :
    (s.switched k').registersOf i = s.registersOf i := by
  rw [registersOf_away (s := s) fun both => both.2 phase]
  by_cases here : k'.currentThread = .exec i
  · have old : s.fresh = false := by
      apply Bool.eq_false_of_not_eq_true
      intro fresh
      rw [sound.fresh i phase fresh (current ▸ here)] at live
      cases live
    unfold switched
    rw [if_neg (by rw [old]; exact Bool.false_ne_true), restoreUserState_exec (s := { s with kernel := k' }) here]
    exact registersOf_here (s := { s with kernel := k', registers := _, pageTable := _ }) here (by
      change k'.phase ≠ .switched
      rw [running]
      exact Phase.noConfusion)
  · have kept : (s.switched k').userRegisters = s.userRegisters ∧ (s.switched k').kernel = k' := by
      unfold switched restoreUserState
      split
      · exact ⟨rfl, rfl⟩
      · cases k'.currentThread <;> exact ⟨rfl, rfl⟩
    rw [registersOf_away, kept.1]
    rw [kept.2]
    exact fun both => here both.1

/-! ## The life of the threads leaves the programs alone -/

theorem sound_of_stays (stays : Stays s.kernel k) (sound : s.Sound) (paid : k.Paid)
    (loaded : Places k) :
    ({ s with kernel := k } : Machine).Sound ∧ ({ s with kernel := k } : Machine).view = s.view := by
  have running (at' : k.phase = .running) : s.kernel.phase = .running := by
    rcases stays.phase with same | ⟨before, -⟩
    · rw [← same, at']
    · exact before
  have switched : k.phase = .switched ↔ s.kernel.phase = .switched := by
    obtain same | ⟨before, finishing, asleep⟩ := stays.phase
    · rw [same]
    · rw [before, asleep]
      exact iff_of_false Phase.noConfusion Phase.noConfusion
  constructor
  · refine ⟨paid, loaded, ?_, ?_, ?_⟩
    · intro i phase current live
      exact sound.table i (running phase) (stays.current ▸ current) (stays.spaces ▸ live)
    · intro i phase fresh current
      rw [stays.spaces]
      exact sound.fresh i (switched.1 phase) fresh (stays.current ▸ current)
    · intro i none
      exact sound.calm i (stays.spaces ▸ none)
  · refine view_congr stays.spaces rfl fun i _ => ?_
    unfold registersOf
    simp only [stays.current, ne_eq, switched]

theorem switch_kernel (s : Machine) (k : Mp2.Kernel) :
    (s.switch k).kernel = k ∧ (s.switch k).pageTable = s.pageTable ∧ (s.switch k).trapped = s.trapped := by
  unfold switch saveUserState
  split
  · cases s.kernel.currentThread <;> exact ⟨rfl, rfl, rfl⟩
  · exact ⟨rfl, rfl, rfl⟩

theorem sound_of_hands (hands : Hands s.kernel k) (sound : s.Sound) (paid : k.Paid)
    (loaded : Places k) :
    (s.switch k).Sound ∧ (s.switch k).view = s.view := by
  obtain ⟨kernel, table, trapped⟩ := switch_kernel s k
  constructor
  · refine ⟨by rwa [kernel], by rwa [kernel], ?_, ?_, ?_⟩
    · intro i phase current live
      rw [kernel] at phase current live
      obtain switched | rfl := hands.moved
      · rw [switched] at phase
        cases phase
      · rw [table]
        exact sound.table i phase current live
    · intro i phase fresh current
      rw [kernel] at phase current
      rw [kernel, hands.spaces]
      have new : (s.switch k).fresh = decide (s.kernel.place k.currentThread = .forked) := by
        unfold switch
        rw [if_pos phase]
      rw [new, decide_eq_true_eq, current] at fresh
      have agree := sound.loaded i
      rw [fresh] at agree
      simpa [agrees] using agree
    · intro i none
      rw [kernel, hands.spaces] at none
      rw [trapped]
      exact sound.calm i none
  · refine view_congr (by rw [kernel]; exact hands.spaces) trapped fun i _ => ?_
    exact registersOf_switch hands.phase hands.moved

theorem switched_kernel (s : Machine) (k : Mp2.Kernel) : (s.switched k).kernel = k ∧ (s.switched k).trapped = s.trapped := by
  unfold switched restoreUserState
  split
  · exact ⟨rfl, rfl⟩
  · cases k.currentThread <;> exact ⟨rfl, rfl⟩

theorem sound_of_resumes (resumes : Resumes s.kernel k) (sound : s.Sound) (paid : k.Paid)
    (loaded : Places k) :
    (s.switched k).Sound ∧ (s.switched k).view = s.view := by
  obtain ⟨kernel, trapped⟩ := switched_kernel s k
  constructor
  · refine ⟨by rwa [kernel], by rwa [kernel], ?_, ?_, ?_⟩
    · intro i _ current live
      rw [kernel] at current live
      rw [resumes.spaces] at live
      have old : s.fresh = false := by
        apply Bool.eq_false_of_not_eq_true
        intro fresh
        rw [sound.fresh i resumes.phase fresh (resumes.current ▸ current)] at live
        cases live
      unfold switched
      rw [if_neg (by rw [old]; exact Bool.false_ne_true), restoreUserState_exec (s := { s with kernel := k }) current]
    · intro i phase
      rw [kernel, resumes.running] at phase
      cases phase
    · intro i none
      rw [kernel, resumes.spaces] at none
      rw [trapped]
      exact sound.calm i none
  · refine view_congr (by rw [kernel]; exact resumes.spaces) trapped fun i live => ?_
    exact registersOf_switched sound resumes.phase resumes.current resumes.running live

/-- **The scheduler moves no program.** -/
theorem life_kept {e : Mp2.Event} (sound : s.Sound) (other : ∀ exe, e ≠ .load exe) (next : s.life e = some s') :
    s'.Sound ∧ s'.view = s.view := by
  have stays (kind : e = .exec ∨ e = .begin ∨ (∃ t, e = .wake t) ∨ e = .block ∨ e = .finish) (life : ∀ x, e ≠ .access x) {k : Mp2.Kernel}
      (step : s.kernel.step e = some k) : ({ s with kernel := k } : Machine).Sound ∧ ({ s with kernel := k } : Machine).view = s.view :=
    sound_of_stays (stays_of_step step kind) sound (sound.paid.step step) (sound.loaded.step sound.paid life step)
  cases e with
  | exec | begin | wake t =>
    obtain ⟨k, step, rfl⟩ := Option.map_eq_some_iff.1 next
    exact stays (by simp) (fun _ => Mp2.Event.noConfusion) step
  | block | finish =>
    obtain ⟨-, next⟩ := Option.ite_none_right_eq_some.1 next
    obtain ⟨k, step, rfl⟩ := Option.map_eq_some_iff.1 next
    exact stays (by simp) (fun _ => Mp2.Event.noConfusion) step
  | load exe => exact absurd rfl (other exe)
  | access x => cases next
  | yield | dispatch =>
    obtain ⟨k, step, rfl⟩ := Option.map_eq_some_iff.1 next
    exact sound_of_hands (hands_of_step step (by simp)) sound (sound.paid.step step)
      (sound.loaded.step sound.paid (fun _ => Mp2.Event.noConfusion) step)
  | check =>
    obtain ⟨k, step, rfl⟩ := Option.map_eq_some_iff.1 next
    exact sound_of_resumes (resumes_of_check step) sound (sound.paid.step step)
      (sound.loaded.step sound.paid (fun _ => Mp2.Event.noConfusion) step)

end Machine

end Nachos.User
