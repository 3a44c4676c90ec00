import Nachos.Pthreads.Scaling
import Nachos.Pthreads.Vector

/-!
# The life of a consumer object

`Consumer::cancel` stores to `is_cancel` and then reads `t`, both members of an object that the
consumer's own thread deletes once it has left its loop. Objects and accesses are recorded beside
the pipeline.
-/

namespace Nachos.Pthreads
open Transition

/-- The data members that `Consumer::cancel` uses. -/
inductive Field where
  | isCancel
  | t

/-- A use of a member by `cancel`: whether the object was there. -/
structure Access where
  consumer : ℕ
  field : Field
  alive : Bool

/-- The pipeline with its consumer objects. A thread that has `returned` has executed its
`delete consumer`. -/
structure Lifetimes where
  pipeline : Pipeline
  alive : ℕ → Bool
  returned : ℕ → Bool
  deletions : ℕ → ℕ
  accesses : List Access

/-- A step of the pipeline, or the `delete consumer` of a thread that has left its loop. -/
inductive Move where
  | thread (e : Event)
  | delete (i : ℕ)

namespace Lifetimes

/-- The uses of a step: `cancel` is called on the last consumer of the vector. -/
def uses (s : Lifetimes) : Event → List Access
  | .cancel => s.pipeline.controller.consumers.getLast?.toList.map fun i => ⟨i, .isCancel, s.alive i⟩
  | .pthreadCancel => s.pipeline.controller.cancelling.toList.map fun i => ⟨i, .t, s.alive i⟩
  | _ => []

/-- `new Consumer`. -/
def allocated (s : Lifetimes) : Event → ℕ → Bool
  | .create => Function.update s.alive s.pipeline.consumers.length true
  | _ => s.alive

def thread (s : Lifetimes) (e : Event) : Option Lifetimes :=
  (s.pipeline.step e).map fun p =>
    { s with pipeline := p, alive := s.allocated e, accesses := s.accesses ++ s.uses e }

def delete (s : Lifetimes) (i : ℕ) : Option Lifetimes :=
  s.pipeline.consumers[i]?.bind fun c =>
    if c.phase = .left ∧ s.returned i = false then
      some { s with
        alive := Function.update s.alive i false
        returned := Function.update s.returned i true
        deletions := Function.update s.deletions i (s.deletions i + 1) }
    else none

def step (s : Lifetimes) : Move → Option Lifetimes
  | .thread e => s.thread e
  | .delete i => s.delete i

/-- Before a consumer is created there is no object. -/
def initial (p : Pipeline) : Lifetimes := ⟨p, fun _ => false, fun _ => false, fun _ => 0, []⟩

/-- `ConsumerController::process` beside the other threads. -/
def Controlled (low high : ℤ) (s : Lifetimes) : Move → Prop
  | .thread e => s.pipeline.Controlled low high e
  | .delete _ => True

/-- No thread deletes its consumer while the controller is in `cancel` for it. -/
def Patient (s : Lifetimes) : Move → Prop
  | .thread _ => True
  | .delete i => s.pipeline.controller.cancelling ≠ some i

/-- `cancel` has used objects that were there, and none has been deleted twice. -/
structure Safe (s : Lifetimes) : Prop where
  accesses : ∀ a ∈ s.accesses, a.alive = true
  deletions : ∀ i, s.deletions i ≤ 1

end Lifetimes

/-- The pipeline on `n` lines of a file, with its consumer objects. -/
def lifetimes (n : ℕ) (input : List Item) : System Lifetimes Move where
  init s := ∃ p, (pipeline n input).init p ∧ s = .initial p
  step s m s' := s.step m = some s'

namespace Lifetimes

variable {s s' : Lifetimes} {n : ℕ} {input : List Item} {i : ℕ} {e : Event} {m : Move} {low high : ℤ}

/-- An object is there until its thread has returned, which cancelling waits for. -/
structure Sound (s : Lifetimes) : Prop where
  manned : s.pipeline.Manned
  alive : ∀ i < s.pipeline.consumers.length, s.returned i = false → s.alive i = true
  returned : ∀ i, s.returned i = true → ∃ c, s.pipeline.consumers[i]? = some c ∧ c.phase = .left
  deletions : ∀ i, s.deletions i = if s.returned i then 1 else 0
  waits : ∀ i, s.pipeline.controller.cancelling = some i → s.returned i = false
  accesses : ∀ a ∈ s.accesses, a.alive = true

namespace Sound

theorem initial (garbage : ℤ → Piece) : (Lifetimes.initial (.initial n input garbage)).Sound where
  manned := .initial n input garbage
  alive i inside := absurd inside (Nat.not_lt_zero i)
  returned i h := by cases h
  deletions _ := rfl
  waits _ _ := rfl
  accesses a mem := by cases mem

theorem safe (h : s.Sound) : s.Safe where
  accesses := h.accesses
  deletions i := by
    rw [h.deletions i]
    split
    · exact le_rfl
    · exact Nat.zero_le 1

/-- No thread of the vector has returned while none is being cancelled. -/
theorem working (h : s.Sound) (idle : s.pipeline.controller.cancelling = none) (mem : i ∈ s.pipeline.controller.consumers) :
    s.returned i = false := by
  rw [← Bool.not_eq_true]
  intro gone
  obtain ⟨c, found, left⟩ := h.returned i gone
  have busy := h.manned.flagged i c found (h.manned.left i c found left) mem
  rw [idle] at busy
  cases busy

/-- What `cancel` uses is there. -/
theorem uses (h : s.Sound) (t : (s.pipeline.step e).isSome) : ∀ a ∈ s.uses e, a.alive = true := by
  intro a mem
  cases e with
  | cancel =>
    obtain ⟨p, t⟩ := Option.isSome_iff_exists.1 t
    obtain ⟨idle, -⟩ := Option.ite_none_right_eq_some.1 t
    obtain ⟨i, last, rfl⟩ := List.mem_map.1 mem
    have mem := List.mem_of_getLast? (Option.mem_toList.1 last)
    exact h.alive i (h.manned.created i mem) (h.working idle mem)
  | pthreadCancel =>
    obtain ⟨i, target, rfl⟩ := List.mem_map.1 mem
    have target := Option.mem_toList.1 target
    apply h.alive i
    · exact h.manned.created i (List.mem_of_getLast? (h.manned.target i target))
    · exact h.waits i target
  | _ => cases mem

/-- The objects are there that the step leaves, and the one it allocates. -/
theorem allocated (h : s.Sound) {p : Pipeline} (ran : s.pipeline.step e = some p) (inside : i < p.consumers.length)
    (working : s.returned i = false) : s.allocated e i = true := by
  have kept (other : e ≠ .create) : s.allocated e i = true := by
    have same : s.allocated e = s.alive := by
      cases e with
      | create => exact absurd rfl other
      | _ => rfl
    rw [same]
    exact h.alive i (Pipeline.length_step ran other ▸ inside) working
  cases Pipeline.scaled ran with
  | create =>
    simp only [Pipeline.create_consumers, List.length_append, List.length_singleton] at inside
    by_cases eq : i = s.pipeline.consumers.length
    · subst eq
      exact Function.update_self ..
    · exact (Function.update_of_ne eq ..).trans (h.alive i (by omega) working)
  | cancel => exact kept nofun
  | pthreadCancel => exact kept nofun
  | moved other _ _ => exact kept other
  | others other _ _ _ => exact kept other

/-- The consumer that the controller is in `cancel` for has not returned. -/
theorem target (h : s.Sound) {p : Pipeline} (ran : s.pipeline.step e = some p) (target : p.controller.cancelling = some i) :
    s.returned i = false := by
  cases Pipeline.scaled ran with
  | create idle =>
    rw [Pipeline.create_controller_cancelling, idle] at target
    cases target
  | cancel idle last _ =>
    obtain rfl := Option.some.inj target
    exact h.working idle (List.mem_of_getLast? last)
  | pthreadCancel => cases target
  | moved _ same _ => exact h.waits i (same ▸ target)
  | others _ _ cancelling _ => exact h.waits i (cancelling ▸ target)

theorem thread (h : s.Sound) (t : s.thread e = some s') : s'.Sound := by
  obtain ⟨p, ran, rfl⟩ := Option.map_eq_some_iff.1 t
  have there := h.uses (Option.isSome_of_eq_some ran)
  refine ⟨h.manned.step ran, fun i => h.allocated ran, ?_, h.deletions, fun i => h.target ran, ?_⟩
  · intro i gone
    obtain ⟨c, found, left⟩ := h.returned i gone
    exact Pipeline.left_stays ran found left
  · intro a mem
    obtain mem | mem := List.mem_append.1 mem
    · exact h.accesses a mem
    · exact there a mem

theorem delete (h : s.Sound) (patient : s.pipeline.controller.cancelling ≠ some i) (t : s.delete i = some s') : s'.Sound := by
  obtain ⟨c, found, t⟩ := Option.bind_eq_some_iff.1 t
  obtain ⟨⟨left, working⟩, t⟩ := Option.ite_none_right_eq_some.1 t
  obtain rfl := Option.some.inj t
  refine ⟨h.manned, ?_, ?_, ?_, ?_, h.accesses⟩
  · intro j inside working'
    by_cases eq : j = i
    · subst eq
      simp at working'
    · simp only [Function.update_of_ne eq] at working' ⊢
      exact h.alive j inside working'
  · intro j gone
    by_cases eq : j = i
    · subst eq
      exact ⟨c, found, left⟩
    · simp only [Function.update_of_ne eq] at gone
      exact h.returned j gone
  · intro j
    by_cases eq : j = i
    · subst eq
      simp only [Function.update_self, h.deletions j, working]
      rfl
    · simp only [Function.update_of_ne eq]
      exact h.deletions j
  · intro j target
    have ne : j ≠ i := by
      rintro rfl
      exact patient target
    simp only [Function.update_of_ne ne]
    exact h.waits j target

theorem of_reach (reach : Reach (lifetimes n input) (fun s m => s.Controlled low high m ∧ s.Patient m) s) : s.Sound := by
  apply reach.invariant Sound
  · rintro s ⟨p, ⟨garbage, rfl⟩, rfl⟩
    exact initial garbage
  · intro s m s' sound admitted t
    cases m with
    | thread e => exact sound.thread t
    | delete i => exact sound.delete admitted.2 t

end Sound

/-! ## An object that is deleted too early -/

/-- The controller is in `cancel` for a consumer that is not there any more. -/
structure Doomed (s : Lifetimes) (i : ℕ) : Prop where
  target : s.pipeline.controller.cancelling = some i
  inside : i < s.pipeline.consumers.length
  gone : s.alive i = false

theorem Doomed.keeps (h : s.Doomed i) (t : s.step m = some s') (other : m ≠ .thread .pthreadCancel) : s'.Doomed i := by
  cases m with
  | thread e =>
    obtain ⟨p, ran, rfl⟩ := Option.map_eq_some_iff.1 t
    have busy : s.pipeline.controller.cancelling ≠ none := by
      rw [h.target]
      exact nofun
    have kept (create : e ≠ .create) (cancelling : p.controller.cancelling = s.pipeline.controller.cancelling) :
        Doomed { s with pipeline := p, alive := s.allocated e, accesses := s.accesses ++ s.uses e } i := by
      refine ⟨cancelling.trans h.target, (Pipeline.length_step ran create).symm ▸ h.inside, ?_⟩
      cases e with
      | create => exact absurd rfl create
      | _ => exact h.gone
    cases Pipeline.scaled ran with
    | create idle => exact absurd idle busy
    | cancel idle => exact absurd idle busy
    | pthreadCancel => exact absurd rfl other
    | moved create same _ => exact kept create (congrArg _ same)
    | others create _ cancelling _ => exact kept create cancelling
  | delete j =>
    obtain ⟨c, found, t⟩ := Option.bind_eq_some_iff.1 t
    obtain ⟨-, t⟩ := Option.ite_none_right_eq_some.1 t
    obtain rfl := Option.some.inj t
    refine ⟨h.target, h.inside, ?_⟩
    by_cases eq : i = j
    · subst eq
      exact Function.update_self ..
    · exact (Function.update_of_ne eq ..).trans h.gone

/-- The controller goes on and reads `t`. -/
theorem Doomed.read (h : s.Doomed i) : ∃ s', s.step (.thread .pthreadCancel) = some s' ∧ ¬ s'.Safe := by
  have found := List.getElem?_eq_getElem h.inside
  obtain ⟨p, ran⟩ : ∃ p, s.pipeline.step .pthreadCancel = some p := by
    simp [Pipeline.step, Pipeline.pthreadCancel, h.target, found]
  refine ⟨_, Option.map_eq_some_iff.2 ⟨p, ran, rfl⟩, fun safe => ?_⟩
  have there := safe.accesses ⟨i, .t, s.alive i⟩ (List.mem_append_right _ (by simp [uses, h.target]))
  rw [h.gone] at there
  cases there

theorem doomed_of_delete (t : s.delete i = some s') (target : s.pipeline.controller.cancelling = some i) : s'.Doomed i := by
  obtain ⟨c, found, t⟩ := Option.bind_eq_some_iff.1 t
  obtain ⟨-, t⟩ := Option.ite_none_right_eq_some.1 t
  obtain rfl := Option.some.inj t
  exact ⟨target, (List.getElem?_eq_some_iff.1 found).1, Function.update_self ..⟩

/-- **Consumers are deleted in time** in the runs in which no thread deletes its consumer while the
controller is in `cancel` for it. After such a deletion the controller goes on to use the object. -/
theorem consumers_in_time (reach : Reach (lifetimes n input) (fun s m => s.Controlled low high m ∧ s.Patient m) s) :
    s.Safe ∧ ∀ m s', (lifetimes n input).step s m s' → ¬ s.Patient m →
      (lifetimes n input).Ensures (fun _ m => m ≠ .thread .pthreadCancel) (.thread .pthreadCancel) s' fun _ s₂ => ¬ s₂.Safe := by
  refine ⟨(Sound.of_reach reach).safe, fun m s' t hasty => ?_⟩
  cases m with
  | thread e => exact absurd trivial hasty
  | delete i =>
    apply System.ensures_of_stable (Doomed · i)
    · exact doomed_of_delete t (not_not.1 hasty)
    · intro s m s' doomed other t
      exact doomed.keeps t other
    · intro s doomed
      exact doomed.read

/-- A run of the pipeline, in which no object is deleted. -/
theorem of_pipeline {p : Pipeline} (reach : Reach (Pthreads.pipeline n input) (Pipeline.Controlled low high) p) :
    ∃ s, Reach (lifetimes n input) (fun s m => s.Controlled low high m ∧ s.Patient m) s ∧ s.pipeline = p ∧
      ∀ i, s.returned i = false := by
  induction reach with
  | init start => exact ⟨_, .init ⟨_, start, rfl⟩, rfl, fun _ => rfl⟩
  | step _ allowed t ih =>
    obtain ⟨s, reach, rfl, working⟩ := ih
    exact ⟨_, reach.step (a := Move.thread _) ⟨allowed, trivial⟩ (Option.map_eq_some_iff.2 ⟨_, t, rfl⟩), rfl, working⟩

/-- 161 lines with the same item. -/
def sameItems : List Item := .replicate 161 ⟨7, 5, 'A'⟩

/-- The controller is in `cancel` for its second consumer, which is at the head of its loop. -/
theorem exists_cancelling : ∃ s, Reach (lifetimes 161 sameItems) (fun s m => s.Controlled 20 80 m ∧ s.Patient m) s ∧
    s.pipeline.controller.cancelling = some 1 ∧ s.pipeline.consumers[1]? = some ⟨true, false, true, .loop⟩ ∧
    ∀ i, s.returned i = false := by
  have bound : 161 ≤ sameItems.length := List.length_replicate.ge
  have opcodes : ∀ item ∈ sameItems.take 161, item.WellFormed := by
    intro item mem
    rw [List.eq_of_mem_replicate (List.mem_of_mem_take mem)]
    exact List.mem_cons_self
  obtain ⟨p, reach, target, found⟩ := Pipeline.exists_cancelling bound opcodes (by decide) (by decide)
  obtain ⟨s, lifted, rfl, working⟩ := of_pipeline reach
  exact ⟨s, lifted, target, found, working⟩

variable {c : Consumer}

/-- A consumer that is told to stop leaves its loop. -/
theorem leaves (found : s.pipeline.consumers[i]? = some c) (phase : c.phase = .loop) (flag : c.isCancel = true) :
    ∃ s', s.step (.thread (.consumer i)) = some s' ∧ s'.pipeline.consumers[i]? = some { c with phase := .left } ∧
      s'.pipeline.controller = s.pipeline.controller ∧ s'.returned = s.returned := by
  have inside := (List.getElem?_eq_some_iff.1 found).1
  have ran : s.pipeline.step (.consumer i) = some (s.pipeline.setConsumer i { c with phase := .left }) := by
    simp [Pipeline.step, Pipeline.stepConsumer, found, phase, flag]
  exact ⟨_, Option.map_eq_some_iff.2 ⟨_, ran, rfl⟩, List.getElem?_set_self inside, rfl, rfl⟩

/-- Then it deletes itself. -/
theorem deletes (found : s.pipeline.consumers[i]? = some c) (left : c.phase = .left) (working : s.returned i = false) :
    ∃ s', s.step (.delete i) = some s' ∧ s'.alive i = false := by
  refine ⟨_, Option.bind_eq_some_iff.2 ⟨c, found, if_pos ⟨left, working⟩⟩, ?_⟩
  exact Function.update_self ..

/-- The controller is done with its second consumer when that is deleted. -/
theorem consumers_in_time_cancelled : ∃ s, s.Safe ∧ s.alive 1 = false ∧
    Reach (lifetimes 161 sameItems) (fun s m => s.Controlled 20 80 m ∧ s.Patient m) s := by
  obtain ⟨s, reach, target, found, working⟩ := exists_cancelling
  have inside := (List.getElem?_eq_some_iff.1 found).1
  have ran : s.pipeline.step .pthreadCancel = some { s.pipeline.setConsumer 1 ⟨true, true, true, .loop⟩ with
      controller := ⟨s.pipeline.controller.consumers.dropLast, none, none⟩ } := by
    simp [Pipeline.step, Pipeline.pthreadCancel, target, found]
  obtain ⟨s₁, request, found₁, done, working₁⟩ : ∃ s₁, s.step (.thread .pthreadCancel) = some s₁ ∧
      s₁.pipeline.consumers[1]? = some ⟨true, true, true, .loop⟩ ∧ s₁.pipeline.controller.cancelling = none ∧
      s₁.returned = s.returned :=
    ⟨_, Option.map_eq_some_iff.2 ⟨_, ran, rfl⟩, List.getElem?_set_self inside, rfl, rfl⟩
  have requested := reach.step (a := Move.thread .pthreadCancel) ⟨trivial, trivial⟩ request
  obtain ⟨s₂, leave, found₂, same, working₂⟩ := leaves found₁ rfl rfl
  have out := requested.step (a := Move.thread (.consumer 1)) ⟨trivial, trivial⟩ leave
  obtain ⟨s₃, delete, gone⟩ := deletes found₂ rfl (by rw [working₂, working₁, working 1])
  have idle : s₂.pipeline.controller.cancelling ≠ some 1 := by
    rw [same, done]
    exact (Option.some_ne_none 1).symm
  have all := out.step (a := Move.delete 1) ⟨trivial, idle⟩ delete
  exact ⟨s₃, (consumers_in_time all).1, gone, all⟩

/-- The second consumer is deleted between the two uses. -/
theorem deleted_in_cancel : ¬ ∀ s, Reach (lifetimes 161 sameItems) (Controlled 20 80) s → s.Safe := by
  intro claim
  obtain ⟨s, reach, target, found, working⟩ := exists_cancelling
  have free : Reach (lifetimes 161 sameItems) (Controlled 20 80) s := reach.mono fun _ _ _ admitted => admitted.1
  obtain ⟨s₁, leave, found, same, working₁⟩ := leaves found rfl rfl
  have out := free.step (a := Move.thread (.consumer 1)) trivial leave
  obtain ⟨s₂, delete, -⟩ := deletes found rfl (working₁ ▸ working 1)
  have gone := out.step (a := Move.delete 1) trivial delete
  have doomed := doomed_of_delete delete (same ▸ target)
  obtain ⟨s₃, read, dead⟩ := doomed.read
  exact dead (claim s₃ (gone.step (a := Move.thread .pthreadCancel) trivial read))

end Lifetimes

end Nachos.Pthreads
