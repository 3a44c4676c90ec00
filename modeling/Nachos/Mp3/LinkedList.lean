import Mathlib.Data.Int.Notation
import Nachos.Base.Cells
import Nachos.Base.Transition

/-!
# Lists of the kernel

`lib/list.cc` on list elements that are cells of a heap. Every loop has a bound on its rounds,
`fuel`. `List::Remove` deletes the element of the item.
-/

namespace Nachos.Mp3
open Cells Transition

/-- `ASSERT`. -/
def assert (b : Bool) : Except Fault Unit := if b then pure () else throw .assertion

/-- A `List`; its elements are cells of the heap. -/
structure LinkedList where
  first : Ptr
  last : Ptr
  numInList : ℤ

namespace LinkedList

variable {α : Type} [DecidableEq α]

def isEmpty (l : LinkedList) : Bool := l.numInList = 0

/-- The loop of `List::IsInList`. -/
def isInListFrom (h : Heap α) (item : α) : ℕ → Ptr → Except Fault Bool
  | _, none => pure false
  | 0, some _ => throw .diverges
  | fuel + 1, some ptr => do
    let c ← h.read (some ptr)
    if item = c.item then pure true else isInListFrom h item fuel c.next

def isInList (fuel : ℕ) (h : Heap α) (l : LinkedList) (item : α) : Except Fault Bool := isInListFrom h item fuel l.first

/-- `List::Append`. -/
def append (fuel : ℕ) (h : Heap α) (l : LinkedList) (item : α) : Except Fault (Heap α × LinkedList) := do
  let (element, h) := h.alloc ⟨item, none⟩
  assert (! (← l.isInList fuel h item))
  let (h, l) ← if l.isEmpty then pure (h, { l with first := some element, last := some element })
    else do
      let h ← h.setNext l.last (some element)
      pure (h, { l with last := some element })
  let l := { l with numInList := l.numInList + 1 }
  assert (← l.isInList fuel h item)
  pure (h, l)

/-- `List::RemoveFront`. -/
def removeFront (h : Heap α) (l : LinkedList) : Except Fault (α × Heap α × LinkedList) := do
  let element := l.first
  assert (! l.isEmpty)
  let c ← h.read l.first
  let l := if l.first = l.last then { l with first := none, last := none } else { l with first := c.next }
  pure (c.item, h.delete element, { l with numInList := l.numInList - 1 })

/-- The loop of `List::Remove`, with `prev` one element before `ptr`. -/
def removeBehind (item : α) (h : Heap α) (l : LinkedList) : ℕ → Ptr → Ptr → Except Fault (Heap α × LinkedList)
  | _, _, none => throw .assertion
  | 0, _, some _ => throw .diverges
  | fuel + 1, prev, some ptr => do
    let c ← h.read (some ptr)
    if item = c.item then
      let h ← h.setNext prev c.next
      let last := if c.next = none then prev else l.last
      pure (h.delete (some ptr), { l with last := last, numInList := l.numInList - 1 })
    else removeBehind item h l fuel (some ptr) c.next

/-- The two branches of `List::Remove`. -/
def takeOut (fuel : ℕ) (h : Heap α) (l : LinkedList) (item : α) : Except Fault (Heap α × LinkedList) := do
  let c ← h.read l.first
  -- if first item on list is match, then remove from front
  if item = c.item then
    let (removed, h, l) ← l.removeFront h
    assert (item = removed)
    pure (h, l)
  else removeBehind item h l fuel l.first c.next

/-- `List::Remove`. -/
def remove (fuel : ℕ) (h : Heap α) (l : LinkedList) (item : α) : Except Fault (Heap α × LinkedList) := do
  assert (← l.isInList fuel h item)
  let (h, l) ← l.takeOut fuel h item
  assert (! (← l.isInList fuel h item))
  pure (h, l)

/-- The loop of `SortedList::Insert`: the heap in which the element stands before the first that is
bigger, if there is one. -/
def insertBefore (compare : α → α → Int) (item : α) (element : ℕ) (h : Heap α) : ℕ → Ptr → Except Fault (Option (Heap α))
  | 0, _ => throw .diverges
  | fuel + 1, ptr => do
    let c ← h.read ptr
    match c.next with
    | none => pure none
    | some next =>
      let d ← h.read (some next)
      if compare item d.item < 0 then
        let h ← h.setNext (some element) (some next)
        let h ← h.setNext ptr (some element)
        pure (some h)
      else insertBefore compare item element h fuel (some next)

/-- `SortedList::Insert`. -/
def insert (compare : α → α → Int) (fuel : ℕ) (h : Heap α) (l : LinkedList) (item : α) :
    Except Fault (Heap α × LinkedList) := do
  let (element, h) := h.alloc ⟨item, none⟩
  assert (! (← l.isInList fuel h item))
  if l.isEmpty then finish h { l with first := some element, last := some element }
  else
    let c ← h.read l.first
    if compare item c.item < 0 then
      let h ← h.setNext (some element) l.first
      finish h { l with first := some element }
    else
      match ← insertBefore compare item element h fuel l.first with
      | some h => pure (h, { l with numInList := l.numInList + 1 })
      | none =>
        let h ← h.setNext l.last (some element)
        finish h { l with last := some element }
where
  finish (h : Heap α) (l : LinkedList) : Except Fault (Heap α × LinkedList) := do
    let l := { l with numInList := l.numInList + 1 }
    assert (← l.isInList fuel h item)
    pure (h, l)

/-! ## What `Remove` deletes -/

variable {h h' : Heap α} {l l' : LinkedList} {cells : List (ℕ × α)} {item x : α} {a fuel : ℕ} {p prev : Ptr}

theorem removeBehind_deletes (segment : Segment h p cells none) (nodup : (cells.map Prod.snd).Nodup) (mem : (a, item) ∈ cells)
    (done : removeBehind item h l fuel prev p = .ok (h', l')) : h'.cells a = none := by
  induction cells generalizing fuel prev p with
  | nil => cases mem
  | cons c cells ih =>
    obtain ⟨b, x⟩ := c
    obtain ⟨rfl, n, here, rest⟩ := segment
    rw [List.map_cons, List.nodup_cons] at nodup
    cases fuel with
    | zero => cases done
    | succ fuel =>
      rw [removeBehind, Heap.read_some here] at done
      change (if item = x then _ else _) = _ at done
      split at done
      · -- this is the element with the item, since no other has it
        rename_i found
        subst found
        obtain ⟨h₁, -, done⟩ := bind_ok done
        cases done
        obtain same | later := List.mem_cons.1 mem
        · cases same
          exact Function.update_self ..
        · exact absurd (List.mem_map_of_mem later) nodup.1
      · rename_i other
        obtain same | later := List.mem_cons.1 mem
        · cases same
          exact absurd rfl other
        · exact ih rest nodup.2 later done

omit [DecidableEq α] in
theorem removeFront_deletes (first : l.first = some a) (done : l.removeFront h = .ok (x, h', l')) : h'.cells a = none := by
  obtain ⟨_, -, done⟩ := bind_ok done
  obtain ⟨c, -, done⟩ := bind_ok done
  cases done
  rw [first]
  exact Function.update_self ..

theorem takeOut_deletes (segment : Segment h l.first cells none) (nodup : (cells.map Prod.snd).Nodup) (mem : (a, item) ∈ cells)
    (done : l.takeOut fuel h item = .ok (h', l')) : h'.cells a = none := by
  cases cells with
  | nil => cases mem
  | cons d cells =>
    obtain ⟨b, x⟩ := d
    obtain ⟨first, n, here, rest⟩ := segment
    rw [List.map_cons, List.nodup_cons] at nodup
    rw [takeOut, first, Heap.read_some here] at done
    change (if item = x then _ else _) = _ at done
    split at done
    · rename_i found
      subst found
      obtain ⟨⟨y, h₂, l₂⟩, taken, done⟩ := bind_ok done
      obtain ⟨_, -, done⟩ := bind_ok done
      cases done
      obtain same | later := List.mem_cons.1 mem
      · cases same
        exact removeFront_deletes first taken
      · exact absurd (List.mem_map_of_mem later) nodup.1
    · rename_i other
      obtain same | later := List.mem_cons.1 mem
      · cases same
        exact absurd rfl other
      · exact removeBehind_deletes rest nodup.2 later done

/-- **The element of the item is deleted.** -/
theorem remove_deletes (segment : Segment h l.first cells none) (nodup : (cells.map Prod.snd).Nodup) (mem : (a, item) ∈ cells)
    (done : l.remove fuel h item = .ok (h', l')) : h'.cells a = none := by
  obtain ⟨_, -, done⟩ := bind_ok done
  obtain ⟨_, -, done⟩ := bind_ok done
  obtain ⟨⟨h₁, l₁⟩, removed, done⟩ := bind_ok done
  obtain ⟨_, -, done⟩ := bind_ok done
  obtain ⟨_, -, done⟩ := bind_ok done
  cases done
  exact takeOut_deletes segment nodup mem removed

end LinkedList

end Nachos.Mp3
