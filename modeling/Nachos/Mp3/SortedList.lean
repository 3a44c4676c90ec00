import Mathlib.Data.List.Sort
import Nachos.Mp3.LinkedList

/-!
# Sorted lists

`SortedList::Insert` and `List::RemoveFront` on the cells of a list do what `List.orderedInsert` and
`List.tail` do on its items.
-/

namespace Nachos.Mp3.LinkedList
open Cells

variable {α : Type} {h : Heap α} {l : LinkedList} {cells rest : List (ℕ × α)} {item x : α} {a element fuel : ℕ}
  {p : Ptr} {compare : α → α → Int}

/-- The list has the elements `cells`. -/
structure Holds (h : Heap α) (l : LinkedList) (cells : List (ℕ × α)) : Prop where
  segment : Segment h l.first cells none
  last : l.last = cells.getLast?.map Prod.fst
  numInList : l.numInList = cells.length
  nodup : (cells.map Prod.fst).Nodup
  allocated : ∀ c ∈ cells, c.1 < h.brk

/-- The order of the elements. -/
abbrev Before (compare : α → α → Int) (c d : ℕ × α) : Prop := compare c.2 d.2 < 0

theorem isInListFrom_ok [DecidableEq α] (segment : Segment h p cells none) (enough : cells.length ≤ fuel) (item : α) :
    isInListFrom h item fuel p = .ok (decide (item ∈ cells.map Prod.snd)) := by
  induction cells generalizing p fuel with
  | nil =>
    obtain rfl : p = none := segment
    cases fuel <;> rfl
  | cons c cells ih =>
    obtain ⟨rfl, n, here, rest⟩ := segment
    cases fuel with
    | zero => exact absurd enough (by simp)
    | succ fuel =>
      rw [isInListFrom, Heap.read_some here]
      change (if item = c.2 then _ else _) = _
      split_ifs with same
      · simp [same]
        rfl
      · rw [ih rest (by simpa using enough)]
        simp [same]

/-- The items after an insertion of an element. -/
theorem map_insert (element : ℕ) (item : α) (cells : List (ℕ × α)) :
    (cells.orderedInsert (Before compare) (element, item)).map Prod.snd =
      (cells.map Prod.snd).orderedInsert (fun a b => compare a b < 0) item :=
  List.map_orderedInsert _ _ Prod.snd cells (element, item) (fun _ _ => Iff.rfl) fun _ _ => Iff.rfl

/-- A round of the loop. -/
theorem insertBefore_eq {b : ℕ} {y : α} {n : Ptr} (here : h.cells a = some ⟨x, some b⟩) (there : h.cells b = some ⟨y, n⟩) :
    insertBefore compare item element h (fuel + 1) (some a) = if compare item y < 0 then do
      let h ← h.setNext (some element) (some b)
      let h ← h.setNext (some a) (some element)
      pure (some h)
    else insertBefore compare item element h fuel (some b) := by
  rw [insertBefore, Heap.read_some here]
  change (h.read (some b) >>= _) = _
  rw [Heap.read_some there]
  rfl

/-- The loop puts the element before the first that is bigger, or finds none. -/
theorem insertBefore_ok (segment : Segment h (some a) ((a, x) :: rest) none) (nodup : (((a, x) :: rest).map Prod.fst).Nodup)
    (new : h.cells element = some ⟨item, none⟩) (other : element ∉ ((a, x) :: rest).map Prod.fst) (enough : rest.length < fuel) :
    (insertBefore compare item element h fuel (some a) = .ok none ∧ ∀ c ∈ rest, ¬ compare item c.2 < 0) ∨
    ∃ h', insertBefore compare item element h fuel (some a) = .ok (some h') ∧ h'.brk = h.brk ∧
      Segment h' (some a) ((a, x) :: rest.orderedInsert (Before compare) (element, item)) none ∧
      (rest.orderedInsert (Before compare) (element, item)).getLast? = rest.getLast? ∧
      ∀ b, b ∉ ((a, x) :: rest).map Prod.fst → b ≠ element → h'.cells b = h.cells b := by
  induction rest generalizing a x fuel with
  | nil =>
    cases fuel with
    | zero => exact absurd enough (by simp)
    | succ fuel =>
      obtain ⟨-, n, here, rfl⟩ := segment
      refine .inl ⟨?_, by simp⟩
      rw [insertBefore, Heap.read_some here]
      rfl
  | cons c rest ih =>
    obtain ⟨b, y⟩ := c
    cases fuel with
    | zero => exact absurd enough (by simp)
    | succ fuel =>
      have whole := segment
      obtain ⟨-, n, here, behind⟩ := segment
      have next := behind
      obtain ⟨rfl, m, there, -⟩ := behind
      rw [insertBefore_eq here there]
      split_ifs with before
      · -- the element goes between `a` and `b`
        obtain ⟨h₁, h₂, one, two, brk, linked, keep⟩ := whole.between nodup here new other
        have front : ((b, y) :: rest).orderedInsert (Before compare) (element, item) = (element, item) :: (b, y) :: rest :=
          List.orderedInsert_cons_of_le (Before compare) rest before
        rw [front, one]
        refine .inr ⟨h₂, ?_, brk, linked, ?_, ?_⟩
        · change (h₁.setNext _ _ >>= _) = _
          rw [two]
          rfl
        · rw [List.getLast?_cons_cons]
        · intro d outside ne
          rw [List.map_cons, List.mem_cons, not_or] at outside
          exact keep d outside.1 ne
      · rw [List.map_cons, List.nodup_cons] at nodup
        rw [List.map_cons, List.mem_cons, not_or] at other
        have behind : ((b, y) :: rest).orderedInsert (Before compare) (element, item) =
            (b, y) :: rest.orderedInsert (Before compare) (element, item) :=
          List.orderedInsert_of_not_le (Before compare) rest before
        rw [behind]
        obtain ⟨none, passed⟩ | ⟨h', done, brk, segment', last, keep⟩ := ih next nodup.2 other.2 (by simpa using enough)
        · exact .inl ⟨none, List.forall_mem_cons.2 ⟨before, passed⟩⟩
        · refine .inr ⟨h', done, brk, ?_, ?_, ?_⟩
          · exact ⟨rfl, some b, (keep a nodup.1 (Ne.symm other.1)).trans here, segment'⟩
          · rw [List.getLast?_cons, last, List.getLast?_cons]
          · intro d outside ne
            rw [List.map_cons, List.mem_cons, not_or] at outside
            exact keep d outside.2 ne

/-- An element that no other precedes is the last. -/
theorem orderedInsert_last {c : ℕ × α} (last : ∀ d ∈ cells, ¬ Before compare c d) :
    cells.orderedInsert (Before compare) c = cells ++ [c] := by
  induction cells with
  | nil => rfl
  | cons d cells ih =>
    obtain ⟨this, others⟩ := List.forall_mem_cons.1 last
    rw [List.orderedInsert_of_not_le (Before compare) cells this, ih others]
    rfl

/-- What is left of an insertion once the cells are linked. -/
theorem Holds.insertion (holds : l.Holds h cells) {h' : Heap α} {first last : Ptr} (brk : h'.brk = h.brk + 1)
    (segment : Segment h' first (cells.orderedInsert (Before compare) (h.brk, item)) none)
    (end_ : last = (cells.orderedInsert (Before compare) (h.brk, item)).getLast?.map Prod.fst) :
    Holds h' ⟨first, last, l.numInList + 1⟩ (cells.orderedInsert (Before compare) (h.brk, item)) := by
  have perm : (cells.orderedInsert (Before compare) (h.brk, item)).Perm ((h.brk, item) :: cells) := List.perm_orderedInsert _ _ _
  refine ⟨segment, end_, ?_, ?_, ?_⟩
  · rw [perm.length_eq, holds.numInList]
    rfl
  · rw [(perm.map Prod.fst).nodup_iff, List.map_cons, List.nodup_cons]
    refine ⟨fun mem => ?_, holds.nodup⟩
    obtain ⟨c, mem, same⟩ := List.mem_map.1 mem
    exact absurd (holds.allocated c mem) (same ▸ lt_irrefl _)
  · intro c mem
    rw [brk]
    obtain rfl | mem := List.mem_cons.1 (perm.subset mem)
    · exact Nat.lt_succ_self _
    · exact Nat.lt_succ_of_lt (holds.allocated c mem)

/-- The heap `h₀` has a new element, and the list as it was. -/
structure Allocated (h h₀ : Heap α) (l : LinkedList) (cells : List (ℕ × α)) (item : α) : Prop where
  brk : h₀.brk = h.brk + 1
  new : h₀.cells h.brk = some ⟨item, none⟩
  segment : Segment h₀ l.first cells none
  other : h.brk ∉ cells.map Prod.fst

theorem Holds.alloc (holds : l.Holds h cells) (item : α) : ∃ h₀, h.alloc ⟨item, none⟩ = (h.brk, h₀) ∧ Allocated h h₀ l cells item := by
  obtain ⟨h₀, alloc, brk, new, kept⟩ := Heap.alloc_eq h ⟨item, none⟩
  refine ⟨h₀, alloc, brk, new, holds.segment.frame fun c mem => kept c.1 (holds.allocated c mem).ne, fun mem => ?_⟩
  obtain ⟨c, mem, same⟩ := List.mem_map.1 mem
  exact absurd (holds.allocated c mem) (same ▸ lt_irrefl _)

variable {h₀ h₁ : Heap α}

/-- The element goes to the front of the list. -/
theorem Holds.front (holds : l.Holds h ((a, x) :: rest)) (new : Allocated h h₀ l ((a, x) :: rest) item)
    (before : compare item x < 0) : ∃ h₁, h₀.setNext (some h.brk) l.first = .ok h₁ ∧
      Holds h₁ ⟨some h.brk, l.last, l.numInList + 1⟩ (((a, x) :: rest).orderedInsert (Before compare) (h.brk, item)) := by
  have front : ((a, x) :: rest).orderedInsert (Before compare) (h.brk, item) = (h.brk, item) :: (a, x) :: rest :=
    List.orderedInsert_cons_of_le (Before compare) rest before
  obtain ⟨h₁, set, brk, at₁, keep⟩ := Heap.setNext_some new.new l.first
  have framed : Segment h₁ l.first ((a, x) :: rest) none :=
    new.segment.frame fun c mem => keep c.1 fun same => new.other (same ▸ List.mem_map_of_mem mem)
  refine ⟨h₁, set, holds.insertion (brk.trans new.brk) ?_ ?_⟩
  · rw [front]
    exact ⟨rfl, l.first, at₁, framed⟩
  · rw [front, List.getLast?_cons_cons]
    exact holds.last

/-- The element goes to the end. -/
theorem Holds.back (holds : l.Holds h ((a, x) :: rest)) (new : Allocated h h₀ l ((a, x) :: rest) item)
    (after : ∀ c ∈ (a, x) :: rest, ¬ compare item c.2 < 0) : ∃ h₁, h₀.setNext l.last (some h.brk) = .ok h₁ ∧
      Holds h₁ ⟨l.first, some h.brk, l.numInList + 1⟩ (((a, x) :: rest).orderedInsert (Before compare) (h.brk, item)) := by
  have back : ((a, x) :: rest).orderedInsert (Before compare) (h.brk, item) = (a, x) :: rest ++ [(h.brk, item)] :=
    orderedInsert_last after
  obtain ⟨h₁, set, brk, linked⟩ := new.segment.hang (List.cons_ne_nil _ _) holds.nodup new.new new.other
  refine ⟨h₁, by rw [holds.last, set], holds.insertion (brk.trans new.brk) (back ▸ linked) ?_⟩
  rw [back, List.getLast?_append_cons]
  rfl

/-- The element goes where the loop puts it. -/
theorem Holds.middle (holds : l.Holds h ((a, x) :: rest)) (new : Allocated h h₀ l ((a, x) :: rest) item)
    (after : ¬ compare item x < 0) (brk : h₁.brk = h₀.brk)
    (linked : Segment h₁ (some a) ((a, x) :: rest.orderedInsert (Before compare) (h.brk, item)) none)
    (last : (rest.orderedInsert (Before compare) (h.brk, item)).getLast? = rest.getLast?) :
    Holds h₁ ⟨l.first, l.last, l.numInList + 1⟩ (((a, x) :: rest).orderedInsert (Before compare) (h.brk, item)) := by
  have behind : ((a, x) :: rest).orderedInsert (Before compare) (h.brk, item) =
      (a, x) :: rest.orderedInsert (Before compare) (h.brk, item) :=
    List.orderedInsert_of_not_le (Before compare) rest after
  have first : l.first = some a := holds.segment.1
  refine holds.insertion (brk.trans new.brk) ?_ ?_
  · rw [behind, first]
    exact linked
  · rw [behind, List.getLast?_cons, last, holds.last, List.getLast?_cons]

/-- **`List::RemoveFront` takes the first element.** -/
theorem removeFront_ok (holds : l.Holds h ((a, x) :: cells)) : ∃ h' l', l.removeFront h = .ok (x, h', l') ∧ l'.Holds h' cells := by
  obtain ⟨first, n, here, behind⟩ := holds.segment
  have busy : l.isEmpty = false := by
    rw [isEmpty, holds.numInList, List.length_cons]
    simp
    omega
  have nodup := holds.nodup
  rw [List.map_cons, List.nodup_cons] at nodup
  have framed : Segment (h.delete (some a)) n cells none := by
    refine behind.frame fun c mem => Function.update_of_ne ?_ _ _
    intro same
    exact nodup.1 (List.mem_map.2 ⟨c, mem, same⟩)
  have numInList : l.numInList - 1 = cells.length := by
    rw [holds.numInList, List.length_cons]
    omega
  have allocated : ∀ c ∈ cells, c.1 < (h.delete (some a)).brk := fun c mem => holds.allocated c (List.mem_cons_of_mem _ mem)
  unfold removeFront
  rw [busy, first, Heap.read_some here]
  cases cells with
  | nil =>
    have only : l.last = some a := holds.last
    refine ⟨h.delete (some a), ⟨none, none, l.numInList - 1⟩, ?_, ⟨rfl, rfl, numInList, nodup.2, allocated⟩⟩
    rw [only]
    change Except.ok (x, _, (⟨_, _, _⟩ : LinkedList)) = _
    rw [if_pos rfl]
  | cons c cells =>
    have more : l.last = (c :: cells).getLast?.map Prod.fst := by
      rw [holds.last, List.getLast?_cons_cons]
    have differ : some a ≠ l.last := by
      rw [more]
      intro same
      obtain ⟨d, last, same⟩ := Option.map_eq_some_iff.1 same.symm
      exact nodup.1 (List.mem_map.2 ⟨d, List.mem_of_getLast? last, same⟩)
    refine ⟨h.delete (some a), ⟨n, l.last, l.numInList - 1⟩, ?_, ⟨framed, more, numInList, nodup.2, allocated⟩⟩
    change Except.ok (x, _, (⟨_, _, _⟩ : LinkedList)) = _
    rw [if_neg differ]

variable [DecidableEq α]

/-- The last steps of `SortedList::Insert`. -/
theorem finish_ok (holds : Holds h l cells) (enough : cells.length ≤ fuel) (mem : item ∈ cells.map Prod.snd)
    {first last : Ptr} {n : ℤ} (same : l = ⟨first, last, n + 1⟩) : insert.finish fuel item h ⟨first, last, n⟩ = .ok (h, l) := by
  subst same
  unfold insert.finish isInList
  dsimp only
  rw [isInListFrom_ok holds.segment enough, decide_eq_true mem]
  rfl

/-- **`SortedList::Insert` keeps the list in order.** -/
theorem insert_ok (holds : l.Holds h cells) (new : item ∉ cells.map Prod.snd) (enough : cells.length < fuel) :
    ∃ h' l', l.insert compare fuel h item = .ok (h', l') ∧
      l'.Holds h' (cells.orderedInsert (Before compare) (h.brk, item)) := by
  obtain ⟨h₀, alloc, fresh⟩ := holds.alloc item
  have mem : item ∈ (cells.orderedInsert (Before compare) (h.brk, item)).map Prod.snd :=
    List.mem_map.2 ⟨_, (List.mem_orderedInsert _).2 (.inl rfl), rfl⟩
  have length : (cells.orderedInsert (Before compare) (h.brk, item)).length ≤ fuel := by
    rw [List.orderedInsert_length]
    exact enough
  unfold insert isInList
  rw [alloc]
  dsimp only
  rw [isInListFrom_ok fresh.segment enough.le, decide_eq_false new]
  change ∃ h' l', (if l.isEmpty = true then _ else _) = _ ∧ _
  cases cells with
  | nil =>
    have empty : l.isEmpty = true := decide_eq_true holds.numInList
    rw [if_pos empty]
    have linked : Segment h₀ (some h.brk) (([] : List (ℕ × α)).orderedInsert (Before compare) (h.brk, item)) none :=
      ⟨rfl, none, fresh.new, rfl⟩
    have held := holds.insertion fresh.brk linked rfl
    exact ⟨_, _, finish_ok held length mem rfl, held⟩
  | cons c rest =>
    obtain ⟨a, x⟩ := c
    have busy : ¬ l.isEmpty = true := by
      rw [isEmpty, holds.numInList, List.length_cons]
      simp
      omega
    obtain ⟨first, n, here, -⟩ := fresh.segment
    rw [if_neg busy, first, Heap.read_some here, ← first]
    change ∃ h' l', (if compare item x < 0 then _ else _) = _ ∧ _
    split_ifs with before
    · -- item goes at front of list
      obtain ⟨h₁, set, held⟩ := holds.front fresh before
      rw [set]
      exact ⟨_, _, finish_ok held length mem rfl, held⟩
    · obtain ⟨none, passed⟩ | ⟨h₁, done, brk, linked, last, -⟩ :=
        insertBefore_ok (first ▸ fresh.segment) holds.nodup fresh.new fresh.other (Nat.lt_of_succ_lt enough)
      · -- item goes at end of list
        obtain ⟨h₁, set, held⟩ := holds.back fresh (List.forall_mem_cons.2 ⟨before, passed⟩)
        rw [first, none, ← first]
        change ∃ h' l', (h₀.setNext l.last (some h.brk) >>= _) = _ ∧ _
        rw [set]
        exact ⟨_, _, finish_ok held length mem rfl, held⟩
      · have held := holds.middle fresh before brk linked last
        rw [first, done, ← first]
        exact ⟨_, _, rfl, held⟩

end Nachos.Mp3.LinkedList
