import Nachos.Mp2.Reclaiming

/-!
# When a thread has an address space

A thread has its address space from its `Load` on; and a step of the kernel lets the running thread
go on or fall asleep, hands the processor to another, or lets the one it went to go on.
-/

namespace Nachos.User
open Nachos.Mp2

/-- Where a thread stands, and whether its `Load` has returned TRUE. -/
def agrees : Place → Bool → Bool
  | .unborn, loaded | .forked, loaded | .beginning, loaded | .begun, loaded => !loaded
  | .running, loaded | .blocked, loaded => loaded
  | .returned, _ | .finished, _ | .deleted, _ => true

/-- A program has an address space from its `Load` on. -/
def Places (k : Mp2.Kernel) : Prop := ∀ i, agrees (k.place (.exec i)) (k.spaces.space i).isSome = true

variable {k k' : Mp2.Kernel}

/-- A thread moves on. -/
theorem Places.setPlace (h : Places k) {t : ThreadId} {p : Place}
    (later : t.isExec = true → ∀ loaded, agrees (k.place t) loaded = true → agrees p loaded = true) : Places (k.setPlace t p) := by
  intro i
  by_cases same : ThreadId.exec i = t
  · subst same
    rw [Mp2.Kernel.setPlace_self]
    exact later rfl _ (h i)
  · rw [Mp2.Kernel.setPlace_of_ne same]
    exact h i

theorem Places.run (h : Places k) {next : ThreadId} {finishing : Bool} (run : k.run next finishing = some k') : Places k' := by
  obtain rfl := Mp2.Kernel.run_inv run
  apply h.setPlace
  intro _ loaded
  split
  · rename_i new
    rw [new]
    exact id
  · exact id

theorem place_unborn (paid : k.Paid) : k.place (.exec k.started) = .unborn := by
  have absent := (paid.absent k.started).2 le_rfl
  unfold Mp2.Kernel.standings Mp2.Kernel.view at absent
  cases place : k.place (.exec k.started) <;> rw [place] at absent <;> first | rfl | cases absent

theorem space_load_of_ne {τ : Type} [DecidableEq τ] {s s' : Spaces τ} {t u : τ} {exe : Option Executable}
    (load : s.load t exe = some s') (ne : u ≠ t) : s'.space u = s.space u := by
  unfold Spaces.load at load
  split at load
  · obtain ⟨r, -, rfl⟩ := Option.map_eq_some_iff.1 load
    exact Spaces.put_space_of_ne _ _ ne
  · cases load

/-- Threads run when they are loaded. -/
theorem Places.step {e : Mp2.Event} (h : Places k) (paid : k.Paid) (life : ∀ x, e ≠ .access x) (next : k.step e = some k') : Places k' := by
  cases (Mp2.Kernel.step_inv next).2 with
  | exec here =>
    refine h.setPlace fun _ loaded => ?_
    rw [place_unborn paid]
    exact id
  | beginExec i current here =>
    refine h.setPlace fun _ loaded => ?_
    rw [← current, here.2]
    exact id
  | beginPostal here kernel => exact h.setPlace fun program => by simp [kernel] at program
  | load i exe spaces current here load =>
    intro j
    by_cases same : j = i
    · subst same
      rw [Mp2.Kernel.setPlace_self]
      cases loaded : spaces.space j <;> rfl
    · have ne : ThreadId.exec j ≠ .exec i := fun eq => same (ThreadId.exec.inj eq)
      rw [Mp2.Kernel.setPlace_of_ne ne, space_load_of_ne load same]
      exact h j
  | access x => exact absurd rfl (life x)
  | stay | checkNone none => exact h
  | yield next rest awake run => exact Places.run (k := { k with readyList := rest ++ [k.currentThread] }) h run
  | block here =>
    refine h.setPlace fun _ loaded => ?_
    rw [here.2]
    exact id
  | wake t phase blocked =>
    refine h.setPlace fun _ loaded => ?_
    rw [blocked]
    exact id
  | finishExec i current counts here => exact h.setPlace fun _ _ _ => rfl
  | finish kernel here => exact h.setPlace fun _ _ _ => rfl
  | dispatch finishing next rest asleep run => exact Places.run (k := { k with readyList := rest }) h run
  | checkSome t dying => exact h.setPlace fun _ _ _ => rfl

/-- The running thread goes on, or falls asleep. -/
structure Stays (k k' : Mp2.Kernel) : Prop where
  current : k'.currentThread = k.currentThread
  spaces : k'.spaces = k.spaces
  phase : k'.phase = k.phase ∨ k.phase = .running ∧ ∃ finishing, k'.phase = .sleeping finishing

theorem stays_of_step {e : Mp2.Event} (next : k.step e = some k')
    (kind : e = .exec ∨ e = .begin ∨ (∃ t, e = .wake t) ∨ e = .block ∨ e = .finish) : Stays k k' := by
  cases (Mp2.Kernel.step_inv next).2 with
  | exec here | beginExec i current here | beginPostal here kernel => exact ⟨rfl, rfl, .inl rfl⟩
  | wake t phase blocked => exact ⟨rfl, rfl, .inl rfl⟩
  | block here => exact ⟨rfl, rfl, .inr ⟨here.1, _, rfl⟩⟩
  | finishExec i current counts here | finish kernel here => exact ⟨rfl, rfl, .inr ⟨here.elim And.left And.left, _, rfl⟩⟩
  | load | access | stay | yield | dispatch | checkNone | checkSome => simp at kind

/-- The processor goes to the next thread, if there is one. -/
structure Hands (k k' : Mp2.Kernel) : Prop where
  phase : k.phase ≠ .switched
  spaces : k'.spaces = k.spaces
  moved : k'.phase = .switched ∨ k' = k

theorem hands_of_step {e : Mp2.Event} (next : k.step e = some k') (kind : e = .yield ∨ e = .dispatch) : Hands k k' := by
  have awake (at' : k.step .yield = some k') : k.phase = .running := by
    obtain ⟨-, yields⟩ := Option.ite_none_left_eq_some.1 at'
    obtain ⟨here, -⟩ := Option.ite_none_right_eq_some.1 yields
    exact here.elim And.left And.left
  have passes {k₁ : Mp2.Kernel} {t : ThreadId} {finishing : Bool} (run : k₁.run t finishing = some k') (spaces : k₁.spaces = k.spaces) :
      k'.spaces = k.spaces ∧ k'.phase = .switched := by
    obtain rfl := Mp2.Kernel.run_inv run
    exact ⟨spaces, rfl⟩
  cases (Mp2.Kernel.step_inv next).2 with
  | stay => exact ⟨by rw [awake next]; exact Phase.noConfusion, rfl, .inr rfl⟩
  | yield t rest running run =>
    obtain ⟨spaces, phase⟩ := passes run rfl
    exact ⟨by rw [running]; exact Phase.noConfusion, spaces, .inl phase⟩
  | dispatch finishing t rest asleep run =>
    obtain ⟨spaces, phase⟩ := passes run rfl
    exact ⟨by rw [asleep]; exact Phase.noConfusion, spaces, .inl phase⟩
  | exec | beginExec | beginPostal | wake | block | finishExec | finish | load | access | checkNone | checkSome => simp at kind

/-- The thread that was switched to goes on. -/
structure Resumes (k k' : Mp2.Kernel) : Prop where
  phase : k.phase = .switched
  running : k'.phase = .running
  current : k'.currentThread = k.currentThread
  spaces : k'.spaces = k.spaces

theorem resumes_of_check (next : k.step .check = some k') : Resumes k k' := by
  obtain ⟨-, checks⟩ := Option.ite_none_left_eq_some.1 next
  have phase := (Option.ite_none_right_eq_some.1 checks).1
  cases (Mp2.Kernel.step_inv next).2 with
  | checkNone none | checkSome t dying => exact ⟨phase, rfl, rfl, rfl⟩

end Nachos.User
