import Nachos.Mp2.Handover

/-!
# Frames of deleted threads

The destructor of a thread frees its stack and leaves the address space alone, whose destructor
is never called. The frame table is in balance as long as no deleted thread has pages.
-/

namespace Nachos.Mp2
open Transition Ownership

inductive Standing where
  | absent
  | here
  | gone
  deriving DecidableEq

def Place.standing : Place → Standing
  | .unborn => .absent
  | .deleted => .gone
  | _ => .here

namespace Kernel

variable {k k' : Kernel} {t : ThreadId} {i : ℕ} {e : Event} {execExit : Bool}

/-- `numPages` of the thread's address space, 0 for a thread that has not been loaded. -/
def pages (k : Kernel) (i : ℕ) : ℕ := ((k.spaces.space i).map AddrSpace.numPages).getD 0

/-- The used entries of `Frame_Table_status`. -/
def used (k : Kernel) : ℕ := ((Finset.range numPhysPages).filter (k.spaces.memory.frameTableStatus · = true)).card

/-- The frame table accounts for the threads that have not been deleted. -/
def Balanced (k : Kernel) : Prop :=
  k.used = ∑ i ∈ (Finset.range k.started).filter (fun i => k.place (.exec i) ≠ .deleted), k.pages i

instance (k : Kernel) : Decidable k.Balanced := inferInstanceAs (Decidable (_ = _))

/-- All threads that have been loaded are deleted. -/
def AllDeleted (k : Kernel) : Prop := ∀ i, (k.spaces.space i).isSome → k.place (.exec i) = .deleted

/-- No thread with pages is deleted. -/
def Thrifty (k : Kernel) : Event → Prop
  | .check => ∀ i, k.toBeDestroyed = some (.exec i) → k.pages i = 0
  | _ => True

def standings (k : Kernel) : ℕ → Standing := k.view Place.standing

/-- What a step does to the frames and to those who hold them. -/
inductive Spending (k : Kernel) : Event → Kernel → Prop
  | quiet {e : Event} {k' : Kernel} (other : e = .check → ∀ i, k.toBeDestroyed ≠ some (.exec i))
      (standings : k'.standings = k.standings) (started : k'.started = k.started)
      (sound : k.spaces.Sound → k'.spaces.Sound) (holds : k'.spaces.holds = k.spaces.holds) : Spending k e k'
  | create {k' : Kernel} (standings : k'.standings = Function.update k.standings k.started .here)
      (started : k'.started = k.started + 1) (spaces : k'.spaces = k.spaces) : Spending k .exec k'
  | load {k' : Kernel} (i : ℕ) (exe : Option Executable) (here : k.standings i = .here)
      (standings : k'.standings = k.standings) (started : k'.started = k.started)
      (load : k.spaces.load i exe = some k'.spaces) : Spending k (.load exe) k'
  | delete {k' : Kernel} (i : ℕ) (dying : k.toBeDestroyed = some (.exec i)) (here : k.standings i = .here)
      (standings : k'.standings = Function.update k.standings i .gone) (started : k'.started = k.started)
      (spaces : k'.spaces = k.spaces) : Spending k .check k'

/-- A step that has nothing to do with frames. -/
theorem Spending.still (other : e = .check → ∀ i, k.toBeDestroyed ≠ some (.exec i)) (standings : k'.standings = k.standings)
    (started : k'.started = k.started) (spaces : k'.spaces = k.spaces) : Spending k e k' :=
  .quiet other standings started (fun sound => spaces ▸ sound) (congrArg Spaces.holds spaces)

theorem run_spending {next : ThreadId} {finishing : Bool} (h : k.run next finishing = some k') :
    k'.standings = k.standings ∧ k'.started = k.started ∧ k'.spaces = k.spaces := by
  have standings : k'.standings = k.standings := run_view h rfl
  obtain rfl := run_inv h
  exact ⟨standings, rfl, rfl⟩

theorem step_spending (shaped : k.Shaped) (h : k.step e = some k') : Spending k e k' := by
  have same {t : ThreadId} {p q : Place} (at' : k.place t = q) (stays : p.standing = q.standing) :
      (k.setPlace t p).standings = k.standings := view_setPlace_same (at' ▸ stays)
  cases (step_inv h).2 with
  | exec => exact .create view_setPlace_exec rfl rfl
  | beginExec i current here =>
    have place : k.place (.exec i) = .beginning := current ▸ here.2
    exact .still (fun eq => by cases eq) (same place rfl) rfl rfl
  | beginPostal here => exact .still (fun eq => by cases eq) (same here.2 rfl) rfl rfl
  | load i exe spaces current here load =>
    have place : k.place (.exec i) = .begun := current ▸ here.2
    refine .load i exe ?_ (same place ?_) rfl load
    · rw [standings, view, place]
      rfl
    · split_ifs <;> rfl
  | access _ _ _ sound holds => exact .quiet (fun eq => by cases eq) rfl rfl sound holds
  | stay => exact .still (fun eq => by cases eq) rfl rfl rfl
  | yield _ _ _ run | dispatch _ _ _ _ run =>
    obtain ⟨standings, started, spaces⟩ := run_spending run
    exact .still (fun eq => by cases eq) standings started spaces
  | block here => exact .still (fun eq => by cases eq) (same here.2 rfl) rfl rfl
  | wake t _ blocked => exact .still (fun eq => by cases eq) (same blocked rfl) rfl rfl
  | finishExec i current _ here =>
    have moved : (k.setPlace k.currentThread .finished).standings = k.standings :=
      here.elim (fun running => same running.2 rfl) fun returned => same returned.2 rfl
    rw [current] at moved
    exact .still (fun eq => by cases eq) moved rfl rfl
  | finish _ here =>
    have moved : (k.setPlace k.currentThread .finished).standings = k.standings :=
      here.elim (fun running => same running.2 rfl) fun returned => same returned.2 rfl
    exact .still (fun eq => by cases eq) moved rfl rfl
  | checkNone none =>
    refine .still (fun _ i some => ?_) rfl rfl rfl
    rw [none] at some
    cases some
  | checkSome t dying =>
    have kernel (exec : t.isExec = false) : (k.setPlace t .deleted).standings = k.standings := view_setPlace_kernel exec
    cases t with
    | main | postal =>
      refine .still (fun _ i some => ?_) (kernel rfl) rfl rfl
      rw [dying] at some
      cases some
    | exec i =>
      refine .delete i dying ?_ view_setPlace_exec rfl rfl
      rw [standings, view, shaped.dying _ dying]
      rfl

/-! ## The balance -/

/-- Only created threads hold frames. -/
structure Paid (k : Kernel) : Prop where
  shaped : k.Shaped
  sound : k.spaces.Sound
  absent : ∀ i, k.standings i = .absent ↔ k.started ≤ i
  holders : ∀ i, k.started ≤ i → k.spaces.holds i = []

theorem pages_eq (k : Kernel) (i : ℕ) : k.pages i = (k.spaces.holds i).length := by
  unfold pages Spaces.holds
  cases k.spaces.space i with
  | none => rfl
  | some a => exact a.numPages_eq

theorem gone_iff : k.standings i = .gone ↔ k.place (.exec i) = .deleted := by
  unfold standings view
  cases k.place (.exec i) <;> simp [Place.standing]

theorem Paid.used_eq (h : k.Paid) : k.used = ∑ i ∈ Finset.range k.started, k.pages i := by
  simp only [pages_eq]
  apply h.sound.exact.card_used
  · intro i outside
    exact h.holders i (not_lt.1 fun lt => outside (Finset.mem_range.2 lt))
  · intro f mark
    obtain ⟨i, mem⟩ := h.sound.exact.held f mark
    exact Finset.mem_range.2 (h.sound.bound i f mem)

/-- **The balance.** It is off by the pages of the deleted threads. -/
theorem Paid.balanced_iff (h : k.Paid) : k.Balanced ↔ ∀ i, k.standings i = .gone → k.spaces.holds i = [] := by
  have split := Finset.sum_filter_add_sum_filter_not (Finset.range k.started)
    (fun i => k.place (.exec i) ≠ .deleted) k.pages
  rw [Balanced, h.used_eq, ← split, Nat.add_eq_left, Finset.sum_eq_zero_iff]
  constructor
  · intro none i gone
    have bound : i < k.started := by
      refine not_le.1 fun le => ?_
      rw [(h.absent i).2 le] at gone
      cases gone
    have zero := none i (Finset.mem_filter.2 ⟨Finset.mem_range.2 bound, not_not_intro (gone_iff.1 gone)⟩)
    rw [pages_eq] at zero
    exact List.length_eq_zero_iff.1 zero
  · intro none i mem
    have gone := gone_iff.2 (not_not.1 (Finset.mem_filter.1 mem).2)
    rw [pages_eq, none i gone, List.length_nil]

theorem Paid.step (h : k.Paid) (hs : k.step e = some k') : k'.Paid := by
  have shaped := h.shaped.step hs
  cases step_spending h.shaped hs with
  | quiet _ standings started sound holds =>
    refine ⟨shaped, sound h.sound, ?_, ?_⟩
    · rw [standings, started]
      exact h.absent
    · rw [started, holds]
      exact h.holders
  | create standings started spaces =>
    refine ⟨shaped, spaces ▸ h.sound, fun i => ?_, fun i le => ?_⟩
    · rw [standings, started]
      by_cases same : i = k.started
      · rw [same, Function.update_self]
        exact iff_of_false Standing.noConfusion (by omega)
      · rw [Function.update_of_ne same, h.absent]
        omega
    · rw [spaces]
      exact h.holders i (by omega)
  | load i exe here standings started load =>
    refine ⟨shaped, h.sound.load load, ?_, fun j le => ?_⟩
    · rw [standings, started]
      exact h.absent
    · rw [started] at le
      have ne : j ≠ i := by
        rintro rfl
        rw [(h.absent j).2 le] at here
        cases here
      rw [Spaces.holds_load_of_ne load ne]
      exact h.holders j le
  | delete i dying here standings started spaces =>
    refine ⟨shaped, spaces ▸ h.sound, fun j => ?_, fun j le => ?_⟩
    · rw [standings, started]
      by_cases same : j = i
      · rw [same, Function.update_self, ← h.absent, here]
        exact iff_of_false Standing.noConfusion Standing.noConfusion
      · rw [Function.update_of_ne same]
        exact h.absent j
    · rw [spaces]
      exact h.holders j (started ▸ le)

/-- **One step.** A balanced frame table stays so exactly if no thread with pages is deleted. -/
theorem Paid.step_balanced (h : k.Paid) (balanced : k.Balanced) (hs : k.step e = some k') : k'.Balanced ↔ k.Thrifty e := by
  have none := h.balanced_iff.1 balanced
  rw [(h.step hs).balanced_iff]
  cases step_spending h.shaped hs with
  | quiet other standings _ _ holds =>
    rw [standings, holds]
    refine iff_of_true none ?_
    cases e with
    | check => exact fun i dying => (other rfl i dying).elim
    | _ => trivial
  | create standings _ spaces =>
    rw [standings, spaces]
    refine iff_of_true (fun i gone => ?_) trivial
    by_cases same : i = k.started
    · rw [same, Function.update_self] at gone
      cases gone
    · rw [Function.update_of_ne same] at gone
      exact none i gone
  | load i exe here standings _ load =>
    rw [standings]
    refine iff_of_true (fun j gone => ?_) trivial
    have ne : j ≠ i := by
      rintro rfl
      rw [gone] at here
      cases here
    rw [Spaces.holds_load_of_ne load ne]
    exact none j gone
  | delete i dying here standings _ spaces =>
    rw [standings, spaces]
    constructor
    · intro none' j dying'
      rw [dying] at dying'
      obtain rfl := ThreadId.exec.inj (Option.some.inj dying')
      rw [pages_eq, none' i (Function.update_self ..), List.length_nil]
    · intro thrifty j gone
      by_cases same : j = i
      · have zero := thrifty i dying
        rw [pages_eq] at zero
        rw [same]
        exact List.length_eq_zero_iff.1 zero
      · rw [Function.update_of_ne same] at gone
        exact none j gone

theorem Paid.free_of_allDeleted (h : k.Paid) (balanced : k.Balanced) (all : k.AllDeleted) (f : ℕ) :
    k.spaces.memory.frameTableStatus f = false := by
  apply Bool.eq_false_of_not_eq_true
  intro mark
  obtain ⟨i, mem⟩ := h.sound.exact.held f mark
  have loaded : (k.spaces.space i).isSome := by
    by_contra none
    rw [Spaces.holds_of_none (Option.not_isSome_iff_eq_none.1 none)] at mem
    exact List.not_mem_nil mem
  rw [h.balanced_iff.1 balanced i (gone_iff.2 (all i loaded))] at mem
  exact List.not_mem_nil mem

theorem Paid.of_reach {allowed : Kernel → Event → Prop} (h : Reach (lifecycle execExit) allowed k) : k.Paid := by
  refine h.invariant Paid ?_ ?_
  · rintro k ⟨n, spaces, rfl, free, none⟩
    exact ⟨shaped_initial n execExit spaces, Spaces.sound_empty free none, fun i => iff_of_true rfl (Nat.zero_le i),
      fun i _ => Spaces.holds_of_none (none i)⟩
  · intro k e k' paid _ hs
    exact paid.step hs

/-- **Frames are reclaimed** in a run in which no thread with pages is deleted; and a step keeps
the frame table in balance exactly if it deletes none. -/
theorem frames_reclaimed (h : Reach (lifecycle execExit) Thrifty k) :
    k.Balanced ∧ (k.AllDeleted → ∀ f, k.spaces.memory.frameTableStatus f = false) ∧
      ∀ e k', k.step e = some k' → (k'.Balanced ↔ k.Thrifty e) := by
  have paid := Paid.of_reach h
  have balanced : k.Balanced := by
    induction h with
    | init start =>
      obtain ⟨n, spaces, rfl, -⟩ := start
      exact paid.balanced_iff.2 fun i gone => by cases gone
    | step reach thrifty hs ih => exact ((Paid.of_reach reach).step_balanced (ih (Paid.of_reach reach)) hs).2 thrifty
  exact ⟨balanced, paid.free_of_allDeleted balanced, fun e k' hs => paid.step_balanced balanced hs⟩

/-- A test for `Thrifty`. -/
def thrifty (k : Kernel) : Event → Bool
  | .check =>
    match k.toBeDestroyed with
    | some (.exec i) => k.pages i = 0
    | _ => true
  | _ => true

theorem thrifty_of_test (test : k.thrifty e = true) : k.Thrifty e := by
  cases e with
  | check =>
    intro i dying
    rw [thrifty, dying] at test
    exact of_decide_eq_true test
  | _ => trivial

/-- Two programs, of which the second one is not found: its thread is deleted while the first program runs. -/
def secondMissing : List Event :=
  [.exec, .exec, .finish, .dispatch, .check, .begin, .block, .dispatch, .check, .begin, .load (some Spaces.exits), .access (.readMem 0 4),
    .yield, .check, .begin, .load none, .finish, .dispatch, .check, .access (.readMem 4 4)]

theorem secondMissing_isSome : (secondMissing.foldlM (tested step thrifty) (initial 2 false Spaces.start)).isSome := by decide +kernel

def afterMissing : Kernel := (secondMissing.foldlM (tested step thrifty) (initial 2 false Spaces.start)).get secondMissing_isSome

theorem frames_reclaimed_afterMissing : afterMissing.Balanced ∧ afterMissing.used = 9 ∧ afterMissing.place (.exec 1) = .deleted ∧
    afterMissing.place (.exec 0) = .running := by
  have start : Reach (lifecycle false) Thrifty (initial 2 false Spaces.start) := .init ⟨2, Spaces.start, rfl, rfl, fun _ => rfl⟩
  have reach : Reach (lifecycle false) Thrifty afterMissing :=
    start.checked step thrifty (fun _ _ _ done => done) (fun _ _ => thrifty_of_test) secondMissing (Option.some_get secondMissing_isSome).symm
  exact ⟨(frames_reclaimed reach).1, by decide +kernel, by decide +kernel, by decide +kernel⟩

/-- A program is loaded and exits, and its thread is deleted. -/
def wholeLife : List Event :=
  [.exec, .finish, .dispatch, .check, .begin, .block, .dispatch, .check, .begin, .load (some Spaces.exits), .access (.readMem 0 4),
    .access (.readMem 4 4), .access (.readMem 8 4), .finish, .wake .postal, .dispatch, .check]

theorem wholeLife_isSome : (wholeLife.foldlM step (initial 1 false Spaces.start)).isSome := by decide +kernel

def afterLife : Kernel := (wholeLife.foldlM step (initial 1 false Spaces.start)).get wholeLife_isSome

/-- Its nine frames stay in use. -/
theorem frames_lost : ¬ ∀ k, Reach (lifecycle false) (fun _ _ => True) k → k.Balanced := by
  intro claim
  have start : Reach (lifecycle false) (fun _ _ => True) (initial 1 false Spaces.start) :=
    .init ⟨1, Spaces.start, rfl, rfl, fun _ => rfl⟩
  have reach : Reach (lifecycle false) (fun _ _ => True) afterLife :=
    start.run step (fun _ _ _ done => done) wholeLife (Option.some_get wholeLife_isSome).symm
  exact absurd (claim afterLife reach) (by decide +kernel)

end Kernel

end Nachos.Mp2
