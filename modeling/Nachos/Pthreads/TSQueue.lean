import Mathlib.Algebra.Order.Group.Multiset
import Nachos.Base.Ring

/-!
# The data of the blocking queue

`TSQueue` with the critical sections of `enqueue` and `dequeue`. `TSQueue.Holds` is the
representation invariant of the circular buffer.
-/

namespace Nachos.Pthreads

/-- The data members. What `new T[buffer_size]` leaves in the buffer is arbitrary. -/
structure TSQueue (α : Type) where
  bufferSize : ℤ
  buffer : ℤ → α
  size : ℤ
  head : ℤ
  tail : ℤ

namespace TSQueue

variable {α : Type} {q : TSQueue α} {items : List α} {item : α}

/-- The constructor. -/
@[simps] def new (bufferSize : ℤ) (garbage : ℤ → α) : TSQueue α where
  bufferSize := bufferSize
  buffer := garbage
  size := 0
  head := 0
  tail := -1

/-- `enqueue` behind its wait loop. -/
@[simps] def enqueue (q : TSQueue α) (item : α) : TSQueue α where
  bufferSize := q.bufferSize
  tail := (q.tail + 1).tmod q.bufferSize
  buffer := Function.update q.buffer ((q.tail + 1).tmod q.bufferSize) item
  size := q.size + 1
  head := q.head

/-- The item that `dequeue` reads. -/
def front (q : TSQueue α) : α := q.buffer q.head

/-- `dequeue` behind its wait loop. -/
@[simps] def dequeue (q : TSQueue α) : TSQueue α where
  bufferSize := q.bufferSize
  buffer := q.buffer
  head := (q.head + 1).tmod q.bufferSize
  size := q.size - 1
  tail := q.tail

/-- The items from `head` on. -/
def contents (q : TSQueue α) : List α := Ring.segment q.buffer q.head q.bufferSize q.size.toNat

/-- The queue represents the list `items`. Full and empty queues may agree in both indices. -/
structure Holds (q : TSQueue α) (items : List α) : Prop where
  head_nonneg : 0 ≤ q.head
  head_lt : q.head < q.bufferSize
  tail_ge : -1 ≤ q.tail
  tail_lt : q.tail < q.bufferSize
  tail : q.tail ≡ q.head + q.size - 1 [ZMOD q.bufferSize]
  size : q.size = items.length
  room : q.size ≤ q.bufferSize
  contents : q.contents = items

theorem holds_new {bufferSize : ℤ} (positive : 1 ≤ bufferSize) (garbage : ℤ → α) : (new bufferSize garbage).Holds [] where
  head_nonneg := le_refl 0
  head_lt := by simp only [new_head, new_bufferSize]; omega
  tail_ge := le_refl (-1)
  tail_lt := by simp only [new_tail, new_bufferSize]; omega
  tail := by simp [Int.ModEq.refl]
  size := rfl
  room := by simp only [new_size, new_bufferSize]; omega
  contents := rfl

/-- The cell that `enqueue` stores to is the one behind the segment. -/
theorem Holds.slot (h : q.Holds items) : (q.tail + 1).tmod q.bufferSize = (q.head + items.length) % q.bufferSize := by
  have start := h.tail_ge
  have next : q.tail + 1 ≡ q.head + items.length [ZMOD q.bufferSize] := by
    have := h.tail.add_right 1
    rwa [sub_add_cancel, h.size] at this
  rw [Int.tmod_eq_emod_of_nonneg (by omega)]
  exact next

theorem Holds.enqueue (h : q.Holds items) (room : q.size ≠ q.bufferSize) (item : α) :
    (q.enqueue item).Holds (items ++ [item]) := by
  have positive : 0 < q.bufferSize := h.head_nonneg.trans_lt h.head_lt
  have free : (items.length : ℤ) < q.bufferSize := by
    have := h.room
    have := h.size
    omega
  have inside := Int.emod_nonneg (q.head + items.length) positive.ne'
  have below := Int.emod_lt_of_pos (q.head + items.length) positive
  refine ⟨h.head_nonneg, h.head_lt, ?_, ?_, ?_, ?_, ?_, ?_⟩
  · rw [enqueue_tail, h.slot]
    omega
  · rw [enqueue_tail, h.slot]
    exact below
  · rw [enqueue_tail, enqueue_head, enqueue_size, enqueue_bufferSize, h.slot, h.size, ← add_assoc, add_sub_cancel_right]
    exact Int.mod_modEq _ _
  · rw [enqueue_size, h.size, List.length_append, List.length_singleton, Nat.cast_add, Nat.cast_one]
  · rw [enqueue_size, h.size, enqueue_bufferSize]
    omega
  · have length : (q.size + 1).toNat = items.length + 1 := by
      have := h.size
      omega
    have before : Ring.segment q.buffer q.head q.bufferSize items.length = items := by
      have := h.contents
      rwa [TSQueue.contents, h.size, Int.toNat_natCast] at this
    have stored : (q.enqueue item).buffer = Function.update q.buffer ((q.tail + 1).tmod q.bufferSize) item := rfl
    rw [TSQueue.contents, stored, enqueue_head, enqueue_bufferSize, enqueue_size, length, h.slot,
      Ring.segment_update free, before]

theorem Holds.ne_nil (h : q.Holds items) (filled : q.size ≠ 0) : items ≠ [] := by
  rintro rfl
  exact filled h.size

theorem Holds.dequeue (h : q.Holds (item :: items)) : q.front = item ∧ q.dequeue.Holds items := by
  have positive : 0 < q.bufferSize := h.head_nonneg.trans_lt h.head_lt
  have length : q.size = items.length + 1 := by
    rw [h.size, List.length_cons, Nat.cast_add, Nat.cast_one]
  have wrap : (q.head + 1).tmod q.bufferSize = (q.head + 1) % q.bufferSize :=
    Int.tmod_eq_emod_of_nonneg (by have := h.head_nonneg; omega)
  have parts := h.contents
  rw [TSQueue.contents, length, show ((items.length : ℤ) + 1).toNat = items.length + 1 by omega, Ring.segment_succ,
    Int.emod_eq_of_lt h.head_nonneg h.head_lt, List.cons.injEq] at parts
  refine ⟨parts.1, ?_, ?_, h.tail_ge, h.tail_lt, ?_, ?_, ?_, ?_⟩
  · rw [dequeue_head, wrap]
    exact Int.emod_nonneg _ positive.ne'
  · rw [dequeue_head, wrap]
    exact Int.emod_lt_of_pos _ positive
  · have same : q.head + q.size - 1 = q.head + 1 + (q.size - 1) - 1 := by omega
    rw [dequeue_tail, dequeue_head, dequeue_size, dequeue_bufferSize, wrap]
    refine h.tail.trans ?_
    rw [same]
    exact ((Int.mod_modEq _ _).symm.add_right _).sub_right _
  · rw [dequeue_size, length, add_sub_cancel_right]
  · rw [dequeue_size, dequeue_bufferSize]
    have := h.room
    omega
  · have kept : q.dequeue.buffer = q.buffer := rfl
    rw [TSQueue.contents, kept, dequeue_head, dequeue_bufferSize, dequeue_size, length, add_sub_cancel_right,
      Int.toNat_natCast, wrap]
    exact parts.2

/-- The queue represents its contents. -/
def Sound (q : TSQueue α) : Prop := q.Holds q.contents

theorem Holds.sound (h : q.Holds items) : q.Sound := by
  rw [Sound, h.contents]
  exact h

theorem sound_new {bufferSize : ℤ} (positive : 1 ≤ bufferSize) (garbage : ℤ → α) : (new bufferSize garbage).Sound :=
  (holds_new positive garbage).sound

/-- The items in the queue, in no order. -/
def bag (q : TSQueue α) : Multiset α := q.contents

theorem Sound.card_bag (h : q.Sound) : (q.bag.card : ℤ) = q.size := by
  rw [bag, Multiset.coe_card, Holds.size h]

theorem Sound.enqueue (h : q.Sound) (room : q.size ≠ q.bufferSize) (item : α) :
    (q.enqueue item).Sound ∧ (q.enqueue item).bag = q.bag + {item} := by
  have after := Holds.enqueue h room item
  refine ⟨after.sound, ?_⟩
  rw [bag, after.contents, ← Multiset.coe_add, Multiset.coe_singleton, bag]

theorem Sound.dequeue (h : q.Sound) (filled : q.size ≠ 0) : q.dequeue.Sound ∧ q.bag = {q.front} + q.dequeue.bag := by
  obtain ⟨item, rest, eq⟩ := List.exists_cons_of_ne_nil (Holds.ne_nil h filled)
  have split : q.Holds (item :: rest) := by
    rw [← eq]
    exact h
  obtain ⟨front, after⟩ := split.dequeue
  refine ⟨after.sound, ?_⟩
  rw [bag, eq, front, bag, after.contents, ← Multiset.cons_coe, Multiset.singleton_add]

end TSQueue

end Nachos.Pthreads
