import Mathlib.Data.Finset.Card
import Mathlib.Tactic.Common

/-!
# Condition variables

A condition variable with the threads blocked on it and the threads a signal has taken off it
that have not tested their condition again. `Covered c n` says that no wake-up is lost: as
long as a thread sleeps, each of the `n` available units has a signalled thread on its way.
It survives threads that take a unit without having slept, and spurious wake-ups.
-/

/-- The threads blocked on a condition variable, and those on their way back from it. -/
structure Condition (τ : Type) where
  sleeping : Finset τ
  signalled : Finset τ
  disjoint : Disjoint sleeping signalled

namespace Condition

variable {τ : Type} {c : Condition τ} {t u : τ} {woken : Finset τ} {n : ℤ}

def idle : Condition τ := ⟨∅, ∅, Finset.disjoint_empty_left _⟩

/-- A thread that sleeps here, or is on its way back. -/
def Concerns (c : Condition τ) (t : τ) : Prop := t ∈ c.sleeping ∨ t ∈ c.signalled

/-- No wake-up is lost: a thread sleeps only while each of the `n` units is spoken for. -/
def Covered (c : Condition τ) (n : ℤ) : Prop := c.sleeping.Nonempty → n ≤ c.signalled.card

@[simp] theorem not_concerns_idle : ¬ (idle : Condition τ).Concerns t := by
  simp [idle, Concerns]

theorem covered_idle : (idle : Condition τ).Covered n := by
  intro sleeps
  simp [idle] at sleeps

theorem covered_of_nonpos (h : n ≤ 0) : c.Covered n := by
  intro _
  omega

variable [DecidableEq τ]

/-- A thread tests its condition: it is on its way back no longer. -/
@[simps] def tested (c : Condition τ) (t : τ) : Condition τ where
  sleeping := c.sleeping
  signalled := c.signalled.erase t
  disjoint := c.disjoint.mono_right (Finset.erase_subset _ _)

/-- A thread has tested its condition in vain and blocks. -/
@[simps] def wait (c : Condition τ) (t : τ) : Condition τ where
  sleeping := insert t c.sleeping
  signalled := c.signalled.erase t
  disjoint := by
    rw [Finset.disjoint_insert_left]
    exact ⟨Finset.notMem_erase _ _, c.disjoint.mono_right (Finset.erase_subset _ _)⟩

/-- A thread wakes up without a signal. -/
@[simps] def wake (c : Condition τ) (t : τ) : Condition τ where
  sleeping := c.sleeping.erase t
  signalled := c.signalled
  disjoint := c.disjoint.mono_left (Finset.erase_subset _ _)

/-- One signal. Which threads it wakes is up to the implementation. -/
@[simps] def signal (c : Condition τ) (woken : Finset τ) : Condition τ where
  sleeping := c.sleeping \ woken
  signalled := c.signalled ∪ c.sleeping ∩ woken
  disjoint := by
    rw [Finset.disjoint_union_right]
    refine ⟨c.disjoint.mono_left Finset.sdiff_subset, ?_⟩
    exact Finset.disjoint_sdiff.symm.mono_right Finset.inter_subset_right

/-- What a signal must do: wake at least one of the sleeping threads, if there is one. -/
def Signals (c : Condition τ) (woken : Finset τ) : Prop :=
  woken ⊆ c.sleeping ∧ (c.sleeping.Nonempty → woken.Nonempty)

instance : Decidable (c.Signals woken) := inferInstanceAs (Decidable (_ ∧ _))

theorem not_concerns_tested (h : t ∉ c.sleeping) : ¬ (c.tested t).Concerns t := by
  rintro (sleeps | comes)
  · exact h sleeps
  · exact Finset.notMem_erase _ _ comes

theorem concerns_tested (h : (c.tested u).Concerns t) : c.Concerns t := by
  rcases h with sleeps | comes
  · exact .inl sleeps
  · exact .inr (Finset.mem_of_mem_erase comes)

theorem concerns_wait (h : (c.wait u).Concerns t) : t = u ∨ c.Concerns t := by
  rcases h with sleeps | comes
  · exact (Finset.mem_insert.1 sleeps).imp_right .inl
  · exact .inr (.inr (Finset.mem_of_mem_erase comes))

theorem concerns_wake (h : (c.wake u).Concerns t) : c.Concerns t := by
  rcases h with sleeps | comes
  · exact .inl (Finset.mem_of_mem_erase sleeps)
  · exact .inr comes

theorem concerns_signal (h : (c.signal woken).Concerns t) : c.Concerns t := by
  rcases h with sleeps | comes
  · exact .inl (Finset.sdiff_subset sleeps)
  · rcases Finset.mem_union.1 comes with comes | sleeps
    · exact .inr comes
    · exact .inl (Finset.mem_of_mem_inter_left sleeps)

theorem Covered.wake (h : c.Covered n) : (c.wake t).Covered n := by
  intro sleeps
  exact h (sleeps.mono (Finset.erase_subset _ _))

/-- A unit that appears is signalled. -/
theorem Covered.signal (h : c.Covered n) (s : c.Signals woken) : (c.signal woken).Covered (n + 1) := by
  intro sleeps
  have before : c.sleeping.Nonempty := sleeps.mono Finset.sdiff_subset
  have apart : Disjoint c.signalled (c.sleeping ∩ woken) := c.disjoint.symm.mono_right Finset.inter_subset_left
  have positive : 0 < woken.card := Finset.card_pos.2 (s.2 before)
  have count := h before
  rw [signal_signalled, Finset.card_union_of_disjoint apart, Finset.inter_eq_right.2 s.1]
  omega

/-- A unit that is taken costs one thread on its way at most, whoever takes it. -/
theorem Covered.tested (h : c.Covered n) : (c.tested t).Covered (n - 1) := by
  intro sleeps
  have count := h sleeps
  have most : c.signalled.card - 1 ≤ (c.signalled.erase t).card := Finset.pred_card_le_card_erase
  rw [tested_signalled]
  omega

end Condition
