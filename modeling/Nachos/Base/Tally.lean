import Mathlib.Data.Finset.Card
import Mathlib.Data.Finset.Range
import Mathlib.Data.Int.Notation
import Mathlib.Tactic.Common

/-!
# Counting the active participants

Participants are created one after the other; each begins and ends later, in any order. A
counter goes up when one begins and down when one ends, so that it counts the active ones.
It is back at zero when nobody is active, which is not to say that everybody is done. Nothing
here depends on a particular program.
-/

inductive Stage where
  | absent
  | waiting
  | active
  | done
  deriving DecidableEq

/-- Participants `0` to `created - 1` exist. -/
structure Tally where
  stage : ℕ → Stage
  created : ℕ
  count : ℤ

namespace Tally

variable {x : Tally} {i : ℕ}

def start : Tally := ⟨fun _ => .absent, 0, 0⟩

/-- The next participant. -/
def create (x : Tally) : Tally := ⟨Function.update x.stage x.created .waiting, x.created + 1, x.count⟩

def begin (x : Tally) (i : ℕ) : Tally := ⟨Function.update x.stage i .active, x.created, x.count + 1⟩

def finish (x : Tally) (i : ℕ) : Tally := ⟨Function.update x.stage i .done, x.created, x.count - 1⟩

def active (x : Tally) : Finset ℕ := (Finset.range x.created).filter (x.stage · = .active)

/-- The counter is right, and exactly the created participants are there. -/
structure Sound (x : Tally) : Prop where
  absent : ∀ i, x.stage i = .absent ↔ x.created ≤ i
  count : x.count = x.active.card

/-- Somebody has been there, and everybody is done. -/
def Over (x : Tally) : Prop := 0 < x.created ∧ ∀ i < x.created, x.stage i = .done

theorem sound_start : start.Sound := ⟨fun i => iff_of_true rfl (Nat.zero_le i), rfl⟩

theorem not_over_start : ¬ start.Over := fun h => Nat.not_lt_zero 0 h.1

theorem Sound.lt_of_ne (h : x.Sound) (ne : x.stage i ≠ .absent) : i < x.created :=
  not_le.1 fun le => ne ((h.absent i).2 le)

theorem Sound.mem_active (h : x.Sound) : i ∈ x.active ↔ x.stage i = .active := by
  rw [active, Finset.mem_filter, Finset.mem_range]
  constructor
  · exact fun both => both.2
  · intro act
    refine ⟨h.lt_of_ne ?_, act⟩
    rw [act]
    exact Stage.noConfusion

/-- One existing participant moves to another stage. -/
theorem Sound.absent_update (h : x.Sound) (ne : x.stage i ≠ .absent) {p : Stage} (hp : p ≠ .absent) (j : ℕ) :
    Function.update x.stage i p j = .absent ↔ x.created ≤ j := by
  by_cases same : j = i
  · rw [same, Function.update_self]
    exact iff_of_false hp (not_le.2 (h.lt_of_ne ne))
  · rw [Function.update_of_ne same]
    exact h.absent j

theorem Sound.create (h : x.Sound) : x.create.Sound := by
  have new (j : ℕ) : x.create.stage j = if j = x.created then .waiting else x.stage j := by
    by_cases same : j = x.created
    · rw [if_pos same, same]
      exact Function.update_self ..
    · rw [if_neg same]
      exact Function.update_of_ne same ..
  constructor
  · intro j
    change x.create.stage j = .absent ↔ x.created + 1 ≤ j
    rw [new]
    by_cases same : j = x.created
    · rw [if_pos same]
      exact iff_of_false Stage.noConfusion (by omega)
    · rw [if_neg same, h.absent]
      omega
  · have same : x.create.active = x.active := by
      ext j
      rw [active, Finset.mem_filter, Finset.mem_range, h.mem_active, new]
      change j < x.created + 1 ∧ _ ↔ _
      by_cases last : j = x.created
      · rw [if_pos last, last]
        have none := (h.absent x.created).2 le_rfl
        rw [none]
        simp
      · rw [if_neg last]
        constructor
        · exact fun both => both.2
        · intro act
          have := h.lt_of_ne (i := j) (by rw [act]; exact Stage.noConfusion)
          exact ⟨by omega, act⟩
    rw [same]
    exact h.count

theorem Sound.begin (h : x.Sound) (waits : x.stage i = .waiting) : (x.begin i).Sound := by
  have exists' : x.stage i ≠ .absent := by
    rw [waits]
    exact Stage.noConfusion
  have absent := h.absent_update (i := i) exists' (p := .active) Stage.noConfusion
  have out : i ∉ x.active := by
    rw [h.mem_active, waits]
    exact Stage.noConfusion
  have grown : (x.begin i).active = insert i x.active := by
    ext j
    rw [Finset.mem_insert, active, Finset.mem_filter, Finset.mem_range, h.mem_active]
    change j < x.created ∧ Function.update x.stage i .active j = .active ↔ _
    by_cases same : j = i
    · rw [same, Function.update_self]
      exact iff_of_true ⟨h.lt_of_ne exists', rfl⟩ (.inl rfl)
    · rw [Function.update_of_ne same, ← h.mem_active, active, Finset.mem_filter, Finset.mem_range]
      simp [same]
  refine ⟨absent, ?_⟩
  rw [grown, Finset.card_insert_of_notMem out]
  change x.count + 1 = _
  rw [h.count]
  omega

theorem Sound.finish (h : x.Sound) (act : x.stage i = .active) : (x.finish i).Sound := by
  have exists' : x.stage i ≠ .absent := by
    rw [act]
    exact Stage.noConfusion
  have absent := h.absent_update (i := i) exists' (p := .done) Stage.noConfusion
  have inside : i ∈ x.active := h.mem_active.2 act
  have shrunk : (x.finish i).active = x.active.erase i := by
    ext j
    rw [Finset.mem_erase, active, Finset.mem_filter, Finset.mem_range, h.mem_active]
    change j < x.created ∧ Function.update x.stage i .done j = .active ↔ _
    by_cases same : j = i
    · rw [same, Function.update_self]
      simp
    · rw [Function.update_of_ne same, ← h.mem_active, active, Finset.mem_filter, Finset.mem_range]
      simp [same]
  refine ⟨absent, ?_⟩
  rw [shrunk, Finset.card_erase_of_mem inside]
  have pos : 0 < x.active.card := Finset.card_pos.2 ⟨i, inside⟩
  change x.count - 1 = _
  rw [h.count]
  omega

theorem not_over_create : ¬ x.create.Over := by
  intro ended
  have stage : x.create.stage x.created = .waiting := Function.update_self ..
  have done := ended.2 x.created (Nat.lt_succ_self x.created)
  rw [stage] at done
  cases done

theorem Sound.not_over_begin (h : x.Sound) (waits : x.stage i = .waiting) : ¬ (x.begin i).Over := by
  intro ended
  have stage : (x.begin i).stage i = .active := Function.update_self ..
  have done := ended.2 i (h.lt_of_ne (by rw [waits]; exact Stage.noConfusion))
  rw [stage] at done
  cases done

/-- Somebody is still active, or nobody is waiting. -/
def Covered (x : Tally) (i : ℕ) : Prop := (∃ j, j ≠ i ∧ x.stage j = .active) ∨ ∀ j < x.created, x.stage j ≠ .waiting

/-- The counter comes back to zero exactly if no other participant is active. -/
theorem Sound.finish_eq_zero_iff (h : x.Sound) (act : x.stage i = .active) :
    (x.finish i).count = 0 ↔ ∀ j, j ≠ i → x.stage j ≠ .active := by
  have after := h.finish act
  rw [after.count, Int.natCast_eq_zero, Finset.card_eq_zero, Finset.eq_empty_iff_forall_notMem]
  have stage (j : ℕ) (ne : j ≠ i) : (x.finish i).stage j = x.stage j := Function.update_of_ne ne ..
  have self : (x.finish i).stage i = .done := Function.update_self ..
  constructor
  · intro empty j ne active
    exact empty j (after.mem_active.2 ((stage j ne).trans active))
  · intro none j mem
    have active := after.mem_active.1 mem
    by_cases same : j = i
    · rw [same, self] at active
      cases active
    · exact none j same ((stage j same).symm.trans active)

theorem Sound.finish_over_iff (h : x.Sound) (act : x.stage i = .active) :
    (x.finish i).Over ↔ ∀ j < x.created, j ≠ i → x.stage j = .done := by
  have bound : i < x.created := h.lt_of_ne (by rw [act]; exact Stage.noConfusion)
  have stage (j : ℕ) (ne : j ≠ i) : (x.finish i).stage j = x.stage j := Function.update_of_ne ne ..
  constructor
  · rintro ⟨-, done⟩ j hj ne
    rw [← stage j ne]
    exact done j hj
  · intro done
    refine ⟨Nat.zero_lt_of_lt bound, fun j hj => ?_⟩
    by_cases same : j = i
    · rw [same]
      exact Function.update_self ..
    · rw [stage j same]
      exact done j hj same

/-- **When zero means over.** -/
theorem Sound.zero_iff_over (h : x.Sound) (act : x.stage i = .active) :
    ((x.finish i).count = 0 ↔ (x.finish i).Over) ↔ x.Covered i := by
  rw [h.finish_eq_zero_iff act, h.finish_over_iff act]
  constructor
  · intro agree
    by_cases other : ∃ j, j ≠ i ∧ x.stage j = .active
    · exact .inl other
    · refine .inr fun j hj waits => ?_
      have ne : j ≠ i := by
        rintro rfl
        rw [waits] at act
        cases act
      have done := agree.1 (fun j ne active => other ⟨j, ne, active⟩) j hj ne
      rw [waits] at done
      cases done
  · rintro (⟨j, ne, active⟩ | begun)
    · have bound : j < x.created := h.lt_of_ne (by rw [active]; exact Stage.noConfusion)
      refine iff_of_false (fun none => none j ne active) fun done => ?_
      have := done j bound ne
      rw [active] at this
      cases this
    · constructor
      · intro none j hj ne
        have present : x.stage j ≠ .absent := fun absent => by
          have := (h.absent j).1 absent
          omega
        cases stage : x.stage j with
        | absent => exact (present stage).elim
        | waiting => exact (begun j hj stage).elim
        | active => exact (none j ne stage).elim
        | done => rfl
      · intro done j ne active
        have bound : j < x.created := h.lt_of_ne (by rw [active]; exact Stage.noConfusion)
        have := done j bound ne
        rw [active] at this
        cases this

end Tally
