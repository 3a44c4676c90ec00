import Mathlib.Data.List.Count
import Mathlib.Data.List.Nodup
import Mathlib.Tactic.Common

/-!
# Counted loops

`firstFrom p count i` is the `for` loop that returns the first index with a property and
`countFrom p count i` the one that counts them. Both test an index before they go on, so
that neither is unrolled over an unknown predicate.
-/

namespace Loop

variable {p q : Nat → Bool} {count i j n : Nat}

/-- The first index with the property among the `count` indices from `i` on. -/
def firstFrom (p : Nat → Bool) : Nat → Nat → Option Nat
  | 0, _ => none
  | count + 1, i => if p i then some i else firstFrom p count (i + 1)

/-- The number of indices with the property among the `count` indices from `i` on. -/
def countFrom (p : Nat → Bool) : Nat → Nat → Nat
  | 0, _ => 0
  | count + 1, i => if p i then countFrom p count (i + 1) + 1 else countFrom p count (i + 1)

theorem firstFrom_some : ∀ {count i : Nat}, firstFrom p count i = some j →
    i ≤ j ∧ j < i + count ∧ p j = true
  | 0, i, h => by cases h
  | count + 1, i, h => by
    rw [firstFrom] at h
    split at h
    · cases h
      exact ⟨(Nat.le_refl _), by omega, ‹_›⟩
    · obtain ⟨h1, h2, h3⟩ := firstFrom_some h
      exact ⟨by omega, by omega, h3⟩

theorem firstFrom_none : ∀ {count i : Nat}, firstFrom p count i = none ↔ ∀ j, i ≤ j → j < i + count → p j = false
  | 0, i => by
    rw [firstFrom]
    exact ⟨fun _ j _ _ => absurd ‹j < i + 0› (by omega), fun _ => rfl⟩
  | count + 1, i => by
    rw [firstFrom]
    split
    · rename_i hp
      refine ⟨fun h => (by cases h), fun h => ?_⟩
      rw [h i (Nat.le_refl _) (by omega)] at hp
      cases hp
    · rename_i hp
      rw [firstFrom_none]
      constructor
      · intro h j h1 h2
        rcases Nat.eq_or_lt_of_le h1 with rfl | h1
        · simpa using hp
        · exact h j h1 (by omega)
      · intro h j h1 h2
        exact h j (by omega) (by omega)

/-- The loop depends on the property at the indices it visits. -/
theorem firstFrom_congr : ∀ {count i : Nat}, (∀ j, i ≤ j → j < i + count → p j = q j) →
    firstFrom p count i = firstFrom q count i
  | 0, _, _ => rfl
  | count + 1, i, h => by
    rw [firstFrom, firstFrom, h i (Nat.le_refl _) (by omega), firstFrom_congr fun j h1 h2 => h j (by omega) (by omega)]

theorem countFrom_eq : ∀ {count i : Nat}, countFrom p count i = (List.range' i count).countP p
  | 0, _ => rfl
  | count + 1, i => by
    rw [countFrom, List.range'_succ, List.countP_cons, countFrom_eq]
    split <;> omega

theorem countFrom_zero_eq (n : Nat) : countFrom p n 0 = (List.range n).countP p := by
  rw [countFrom_eq, List.range_eq_range']

/-- Clearing the property at one index that has it takes one from the count. -/
theorem countFrom_erase (hi : i < n) (hp : p i = true) (hq : ∀ j, q j = (!decide (j = i) && p j)) :
    countFrom q n 0 + 1 = countFrom p n 0 := by
  have split : ∀ m : Nat, (List.range m).countP p = (List.range m).countP q + if i < m then 1 else 0 := by
    intro m
    induction m with
    | zero => simp
    | succ m ih =>
      rw [List.range_succ, List.countP_append, List.countP_append, ih]
      simp only [List.countP_singleton, hq]
      rcases eq_or_ne m i with rfl | e
      · simp [hp]
      · have : i < m + 1 ↔ i < m := by omega
        simp [e, this]
        omega
  rw [countFrom_zero_eq, countFrom_zero_eq, split n, if_pos hi]

end Loop
