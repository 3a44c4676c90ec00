import Mathlib.Data.List.TakeWhile
import Nachos.Base.Bytes

/-!
# C strings in memory

The string that starts a piece of memory is what stands before the first zero byte. The
end of the given piece ends a string too: the piece is to be taken long enough. Nothing
here depends on a particular program.
-/

namespace Bytes

/-- What `strcmp` compares and `strcpy` copies. -/
def cstr (l : List Byte) : List Byte := l.takeWhile (· ≠ 0)

theorem zero_not_mem_cstr (l : List Byte) : 0 ∉ cstr l := by
  intro h
  simpa using List.mem_takeWhile_imp h

theorem cstr_cons (b : Byte) (l : List Byte) : cstr (b :: l) = if b = 0 then [] else b :: cstr l := by
  unfold cstr
  rw [List.takeWhile_cons]
  by_cases h : b = 0
  · rw [if_pos h, if_neg (by simpa using h)]
  · rw [if_neg h, if_pos (by simpa using h)]

/-- The string starts with a text that has no zero byte. -/
theorem cstr_append {w : List Byte} (h : 0 ∉ w) (l : List Byte) : cstr (w ++ l) = w ++ cstr l := by
  induction w with
  | nil => rfl
  | cons b w ih =>
    have hb : b ≠ 0 := (List.ne_of_not_mem_cons h).symm
    rw [List.cons_append, cstr_cons, if_neg hb, ih (List.not_mem_of_not_mem_cons h), List.cons_append]

/-- A text and the zero byte that ends it. -/
theorem cstr_terminated {w : List Byte} (h : 0 ∉ w) (l : List Byte) : cstr (w ++ 0 :: l) = w := by
  rw [cstr_append h, cstr_cons, if_pos rfl, List.append_nil]

theorem cstr_eq_nil_iff {l : List Byte} : cstr l = [] ↔ l.getD 0 0 = 0 := by
  cases l with
  | nil => exact iff_of_true rfl rfl
  | cons b l =>
    rw [cstr_cons, List.getD_cons_zero]
    by_cases hb : b = 0
    · rw [if_pos hb]
      exact iff_of_true rfl hb
    · rw [if_neg hb]
      exact iff_of_false (List.cons_ne_nil _ _) hb

/-- A string that ends within the first `n` bytes does not depend on the others. -/
theorem cstr_take {l : List Byte} {n : ℕ} (h : 0 ∈ l.take n) : cstr (l.take n) = cstr l := by
  induction n generalizing l with
  | zero => cases h
  | succ n ih =>
    cases l with
    | nil => cases h
    | cons b l =>
      rw [List.take_succ_cons] at h ⊢
      rw [cstr_cons, cstr_cons]
      by_cases hb : b = 0
      · rw [if_pos hb, if_pos hb]
      · rw [if_neg hb, if_neg hb, ih ((List.mem_cons.1 h).resolve_left (Ne.symm hb))]

theorem cstr_congr {l m : List Byte} {n : ℕ} (h : 0 ∈ l.take n) (same : l.take n = m.take n) : cstr l = cstr m := by
  rw [← cstr_take h, same, cstr_take (same ▸ h)]

end Bytes
