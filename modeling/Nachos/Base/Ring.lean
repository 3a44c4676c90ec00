import Mathlib.Data.Int.ModEq
import Mathlib.Data.List.Range
import Mathlib.Logic.Function.Basic
import Mathlib.Tactic.Common

/-!
# Circular segments of a buffer

The items that `n` cells hold from `head` on, around a buffer of `bound` cells.
-/

namespace Ring

variable {α : Type} {f : ℤ → α} {head bound : ℤ} {n : ℕ}

/-- The items of `n` cells from `head` on. -/
def segment (f : ℤ → α) (head bound : ℤ) (n : ℕ) : List α := (List.range n).map fun i : ℕ => f ((head + i) % bound)

theorem segment_succ : segment f head bound (n + 1) = f (head % bound) :: segment f ((head + 1) % bound) bound n := by
  rw [segment, List.range_succ_eq_map, List.map_cons, List.map_map, Nat.cast_zero, add_zero, segment]
  congr 1
  apply List.map_congr_left
  intro i _
  have shift : head + (i + 1 : ℕ) = head + 1 + i := by omega
  rw [Function.comp_apply, Int.emod_add_emod, Nat.succ_eq_add_one, shift]

/-- Fewer than `bound` steps around the buffer do not lead back. -/
theorem emod_ne {i : ℕ} (less : i < n) (room : n < bound) : (head + i) % bound ≠ (head + n) % bound := by
  intro equal
  have same : (head + n - (head + i)) % bound = 0 := Int.emod_eq_emod_iff_emod_sub_eq_zero.1 equal.symm
  have distance : head + n - (head + i) = n - i := by omega
  rw [distance] at same
  have far := Int.le_of_dvd (by omega) (Int.dvd_of_emod_eq_zero same)
  omega

/-- An item stored behind a segment that leaves room extends it. -/
theorem segment_update (room : n < bound) (x : α) :
    segment (Function.update f ((head + n) % bound) x) head bound (n + 1) = segment f head bound n ++ [x] := by
  rw [segment, List.range_succ, List.map_append, List.map_singleton, Function.update_self, segment]
  congr 1
  apply List.map_congr_left
  intro i hi
  exact Function.update_of_ne (emod_ne (List.mem_range.1 hi) room) _ _

end Ring
