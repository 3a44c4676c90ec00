import Mathlib.Algebra.BigOperators.Group.Finset.Basic
import Mathlib.Data.Finset.Dedup
import Mathlib.Data.List.Nodup
import Mathlib.Tactic.Common

/-!
# Exclusive ownership of marked resources

A table marks the resources in use, and every owner holds a list of them. `Owned` says that no
resource is held twice and that every held one is marked; `Exact` that the marked ones are all
held. Resources are granted to an owner and released by one. Nothing here depends on a
particular program.
-/

namespace Ownership

variable {ι ρ : Type} {used used' : ρ → Bool} {holds : ι → List ρ} {i : ι} {l : List ρ}

/-- Every resource is held at most once, and is marked when it is held. -/
structure Owned (used : ρ → Bool) (holds : ι → List ρ) : Prop where
  nodup : ∀ i, (holds i).Nodup
  disjoint : ∀ i j, i ≠ j → (holds i).Disjoint (holds j)
  marked : ∀ i, ∀ r ∈ holds i, used r = true

/-- Besides, every marked resource is held. -/
structure Exact (used : ρ → Bool) (holds : ι → List ρ) : Prop extends Owned used holds where
  held : ∀ r, used r = true → ∃ i, r ∈ holds i

theorem exact_nil : Exact (fun _ : ρ => false) (fun _ : ι => []) where
  nodup _ := List.nodup_nil
  disjoint _ _ _ := List.disjoint_nil_left _
  marked _ _ h := (List.not_mem_nil h).elim
  held _ h := (Bool.false_ne_true h).elim

variable [DecidableEq ι]

/-- The owner gets resources that nobody holds. -/
theorem Owned.update (h : Owned used holds) (nodup : l.Nodup) (apart : ∀ j, j ≠ i → l.Disjoint (holds j))
    (new : ∀ r ∈ l, used' r = true) (old : ∀ j, j ≠ i → ∀ r ∈ holds j, used' r = true) :
    Owned used' (Function.update holds i l) := by
  constructor
  · intro j
    by_cases ne : j = i
    · subst ne
      rwa [Function.update_self]
    · rw [Function.update_of_ne ne]
      exact h.nodup j
  · intro j k jk
    by_cases hj : j = i
    · subst hj
      rw [Function.update_self, Function.update_of_ne (Ne.symm jk)]
      exact apart k (Ne.symm jk)
    · by_cases hk : k = i
      · subst hk
        rw [Function.update_self, Function.update_of_ne jk]
        exact (apart j jk).symm
      · rw [Function.update_of_ne hj, Function.update_of_ne hk]
        exact h.disjoint j k jk
  · intro j r
    by_cases ne : j = i
    · subst ne
      rw [Function.update_self]
      exact new r
    · rw [Function.update_of_ne ne]
      exact old j ne r

/-- Unmarked resources are granted and marked. -/
theorem Owned.grant (h : Owned used holds) (nodup : l.Nodup) (free : ∀ r ∈ l, used r = false)
    (marks : ∀ r, used' r = true ↔ used r = true ∨ r ∈ l) : Owned used' (Function.update holds i l) := by
  refine h.update nodup ?_ (fun r mem => (marks r).2 (.inr mem)) fun j _ r mem => (marks r).2 (.inl (h.marked j r mem))
  intro j _ r new held
  exact Bool.false_ne_true ((free r new).symm.trans (h.marked j r held))

/-- The owner gives back what it holds, and the marks go. -/
theorem Owned.release (h : Owned used holds) (marks : ∀ r, used' r = true ↔ used r = true ∧ r ∉ holds i) :
    Owned used' (Function.update holds i []) := by
  refine h.update List.nodup_nil (fun _ _ => List.disjoint_nil_left _) (fun _ mem => (List.not_mem_nil mem).elim) ?_
  intro j ne r mem
  exact (marks r).2 ⟨h.marked j r mem, h.disjoint j i ne mem⟩

theorem Exact.grant (h : Exact used holds) (none : holds i = []) (nodup : l.Nodup) (free : ∀ r ∈ l, used r = false)
    (marks : ∀ r, used' r = true ↔ used r = true ∨ r ∈ l) : Exact used' (Function.update holds i l) := by
  refine ⟨h.toOwned.grant nodup free marks, fun r mark => ?_⟩
  rcases (marks r).1 mark with old | new
  · obtain ⟨j, mem⟩ := h.held r old
    have ne : j ≠ i := by
      rintro rfl
      rw [none] at mem
      exact List.not_mem_nil mem
    refine ⟨j, ?_⟩
    rwa [Function.update_of_ne ne]
  · refine ⟨i, ?_⟩
    rwa [Function.update_self]

theorem Exact.release (h : Exact used holds) (marks : ∀ r, used' r = true ↔ used r = true ∧ r ∉ holds i) :
    Exact used' (Function.update holds i []) := by
  refine ⟨h.toOwned.release marks, fun r mark => ?_⟩
  obtain ⟨old, other⟩ := (marks r).1 mark
  obtain ⟨j, mem⟩ := h.held r old
  have ne : j ≠ i := by
    rintro rfl
    exact other mem
  refine ⟨j, ?_⟩
  rwa [Function.update_of_ne ne]

omit [DecidableEq ι] in
/-- The resources held by finitely many owners. -/
theorem Owned.length_sum [DecidableEq ρ] (h : Owned used holds) (owners : Finset ι) :
    ∑ i ∈ owners, (holds i).length = (owners.biUnion fun i => (holds i).toFinset).card := by
  rw [Finset.card_biUnion]
  · apply Finset.sum_congr rfl
    intro i _
    exact (List.toFinset_card_of_nodup (h.nodup i)).symm
  · intro i _ j _ ne
    exact List.disjoint_toFinset_iff_disjoint.2 (h.disjoint i j ne)

omit [DecidableEq ι] in
/-- **Conservation.** The marked resources are as many as the held ones. -/
theorem Exact.card_used [DecidableEq ρ] (h : Exact used holds) (owners : Finset ι) (resources : Finset ρ)
    (all : ∀ i, i ∉ owners → holds i = []) (within : ∀ r, used r = true → r ∈ resources) :
    (resources.filter (used · = true)).card = ∑ i ∈ owners, (holds i).length := by
  rw [h.toOwned.length_sum]
  congr 1
  ext r
  rw [Finset.mem_filter, Finset.mem_biUnion]
  constructor
  · rintro ⟨-, mark⟩
    obtain ⟨i, mem⟩ := h.held r mark
    refine ⟨i, ?_, List.mem_toFinset.2 mem⟩
    by_contra outside
    rw [all i outside] at mem
    exact List.not_mem_nil mem
  · rintro ⟨i, -, mem⟩
    have mark := h.marked i r (List.mem_toFinset.1 mem)
    exact ⟨within r mark, mark⟩

end Ownership
