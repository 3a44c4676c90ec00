import Mathlib.Data.List.Basic
import Mathlib.Tactic.Common

/-!
# A sequence read and written at a position

A sequence of fixed length with a position in it. A transfer is cut at the end of the sequence
and moves the position by what it transferred, so that transfers one after the other are the
transfer of everything at once. Nothing here depends on what the items are.
-/

/-- A sequence with a position in it. -/
structure Cursor (α : Type) where
  contents : List α
  position : ℕ
  le : position ≤ contents.length

namespace Cursor

variable {α : Type}

@[ext] theorem ext {c c' : Cursor α} (contents : c.contents = c'.contents) (position : c.position = c'.position) : c = c' := by
  cases c
  cases c'
  cases contents
  cases position
  rfl

/-- The sequence with `src` in place of the items at `o`. -/
def splice (l : List α) (o : ℕ) (src : List α) : List α := l.take o ++ src ++ l.drop (o + src.length)

theorem length_splice {l src : List α} {o : ℕ} (fits : o + src.length ≤ l.length) : (splice l o src).length = l.length := by
  simp only [splice, List.length_append, List.length_take, List.length_drop]
  omega

@[simp] theorem splice_nil (l : List α) (o : ℕ) : splice l o [] = l := by simp [splice]

/-- Two pieces side by side. -/
theorem splice_splice {l a b : List α} {o : ℕ} (fits : o + a.length ≤ l.length) :
    splice (splice l o a) (o + a.length) b = splice l o (a ++ b) := by
  have front : (l.take o ++ a).length = o + a.length := by
    rw [List.length_append, List.length_take]
    omega
  have behind : (splice l o a).drop (o + a.length + b.length) = l.drop (o + a.length + b.length) := by
    rw [splice, ← List.drop_drop, List.drop_left' front, List.drop_drop]
  rw [splice, behind]
  unfold splice
  rw [List.take_left' front, List.length_append, List.append_assoc, List.append_assoc, List.append_assoc,
    List.append_assoc, Nat.add_assoc]

/-- How many of `n` items lie between the position and the end. -/
def room (c : Cursor α) (n : ℕ) : ℕ := min n (c.contents.length - c.position)

theorem room_le (c : Cursor α) (n : ℕ) : c.position + c.room n ≤ c.contents.length := by
  have := c.le
  unfold room
  omega

/-! ## Writing -/

/-- Write `src` at the position. -/
def write (c : Cursor α) (src : List α) : Cursor α where
  contents := splice c.contents c.position (src.take (c.room src.length))
  position := c.position + c.room src.length
  le := by
    have := c.room_le src.length
    rw [length_splice (by rw [List.length_take]; omega)]
    exact this

@[simp] theorem length_write (c : Cursor α) (src : List α) : (c.write src).contents.length = c.contents.length := by
  have := c.room_le src.length
  exact length_splice (by rw [List.length_take]; omega)

@[simp] theorem write_nil (c : Cursor α) : c.write [] = c := by
  apply ext
  · exact splice_nil _ _
  · simp [write, room]

/-- What a write takes of two pieces. -/
theorem room_write (c : Cursor α) (a b : List α) :
    c.room (a ++ b).length = c.room a.length + (c.write a).room b.length := by
  have length := c.length_write a
  have position : (c.write a).position = c.position + c.room a.length := rfl
  have := c.le
  rw [List.length_append]
  unfold room at *
  rw [length, position]
  omega

/-- **Two writes one after the other are one.** -/
theorem write_append (c : Cursor α) (a b : List α) : c.write (a ++ b) = (c.write a).write b := by
  have split := c.room_write a b
  have fits := c.room_le a.length
  have taken : (a.take (c.room a.length)).length = c.room a.length := by
    rw [List.length_take]
    exact Nat.min_eq_left (Nat.min_le_left _ _)
  have pieces : (a ++ b).take (c.room (a ++ b).length) = a.take (c.room a.length) ++ b.take ((c.write a).room b.length) := by
    rw [split]
    by_cases all : a.length ≤ c.room a.length
    · have whole : c.room a.length = a.length := Nat.le_antisymm (Nat.min_le_left _ _) all
      rw [whole, List.take_length_add_append, List.take_length]
    · -- the end of the sequence is reached inside `a`
      have full : (c.write a).room b.length = 0 := by
        have length := c.length_write a
        have position : (c.write a).position = c.position + c.room a.length := rfl
        unfold room at *
        rw [length, position]
        omega
      rw [full, Nat.add_zero, List.take_zero, List.append_nil, List.take_append_of_le_length (by omega)]
  apply ext
  · calc (c.write (a ++ b)).contents
        = splice c.contents c.position ((a ++ b).take (c.room (a ++ b).length)) := rfl
      _ = splice c.contents c.position (a.take (c.room a.length) ++ b.take ((c.write a).room b.length)) := by rw [pieces]
      _ = splice (splice c.contents c.position (a.take (c.room a.length))) (c.position + (a.take (c.room a.length)).length)
            (b.take ((c.write a).room b.length)) := (splice_splice (by omega)).symm
      _ = ((c.write a).write b).contents := by rw [taken]; rfl
  · show c.position + c.room (a ++ b).length = c.position + c.room a.length + (c.write a).room b.length
    rw [split, Nat.add_assoc]

/-- Write the pieces one after the other. -/
def writes (c : Cursor α) (pieces : List (List α)) : Cursor α := pieces.foldl write c

/-- **Any number of writes are one.** -/
theorem writes_eq (c : Cursor α) (pieces : List (List α)) : c.writes pieces = c.write pieces.flatten := by
  induction pieces generalizing c with
  | nil => exact c.write_nil.symm
  | cons a rest ih =>
    rw [List.flatten_cons, write_append, ← ih]
    rfl

/-! ## Reading -/

/-- The next `n` items. -/
def read (c : Cursor α) (n : ℕ) : List α := (c.contents.drop c.position).take n

/-- The position behind the next `n` items. -/
def advance (c : Cursor α) (n : ℕ) : Cursor α where
  contents := c.contents
  position := c.position + c.room n
  le := c.room_le n

@[simp] theorem length_read (c : Cursor α) (n : ℕ) : (c.read n).length = c.room n := by
  rw [read, List.length_take, List.length_drop, room]

/-- **Two reads one after the other are one.** -/
theorem read_add (c : Cursor α) (m n : ℕ) : c.read (m + n) = c.read m ++ (c.advance m).read n := by
  have behind : (c.contents.drop c.position).drop m = c.contents.drop (c.position + c.room m) := by
    rw [List.drop_drop]
    by_cases short : m ≤ c.contents.length - c.position
    · rw [room, Nat.min_eq_left short]
    · rw [room, List.drop_of_length_le (by omega), List.drop_of_length_le (by omega)]
  unfold read advance
  rw [List.take_add, behind]

theorem advance_add (c : Cursor α) (m n : ℕ) : c.advance (m + n) = (c.advance m).advance n := by
  apply ext
  · rfl
  · have := c.le
    simp only [advance, room]
    omega

end Cursor
