import Nachos.Base.Trace
import Nachos.Mp3.SortedList

/-!
# Lists that share a heap

The operations of `lib/list.cc` on any number of lists whose elements lie in one heap. An operation on one
list touches the elements of that list and new ones, so that the lists are independent sequences; no element
that was deleted is read again, and an `ASSERT` fails exactly where a sequence cannot do what is asked.
-/

namespace Nachos.Mp3
open Cells Transition

namespace LinkedList

variable {α : Type} {h h' h₀ : Heap α} {l l' : LinkedList} {cells cells' others : List (ℕ × α)} {item x : α} {a b element fuel : ℕ}
  {p prev : Ptr} {compare : α → α → Int}

/-- `List::Prepend`. -/
def prepend [DecidableEq α] (fuel : ℕ) (h : Heap α) (l : LinkedList) (item : α) : Except Fault (Heap α × LinkedList) := do
  let (element, h) := h.alloc ⟨item, none⟩
  assert (! (← l.isInList fuel h item))
  let (h, l) ← if l.isEmpty then pure (h, { l with first := some element, last := some element })
    else do
      let h ← h.setNext (some element) l.first
      pure (h, { l with first := some element })
  let l := { l with numInList := l.numInList + 1 }
  assert (← l.isInList fuel h item)
  pure (h, l)

/-- The items to which the loop of `List::Apply` applies its function. -/
def applyFrom (h : Heap α) : ℕ → Ptr → Except Fault (List α)
  | _, none => pure []
  | 0, some _ => throw .diverges
  | fuel + 1, some ptr => do
    let c ← h.read (some ptr)
    let rest ← applyFrom h fuel c.next
    pure (c.item :: rest)

/-- `List::Apply`. -/
def apply (fuel : ℕ) (h : Heap α) (l : LinkedList) : Except Fault (List α) := applyFrom h fuel l.first

/-- The loop of `List::SanityCheck`. -/
def countFrom (h : Heap α) (l : LinkedList) : ℕ → ℤ → Ptr → Except Fault ℤ
  | 0, _, _ => throw .diverges
  | fuel + 1, numFound, ptr =>
    if ptr = l.last then pure numFound
    else do
      assert (numFound + 1 ≤ l.numInList)
      let c ← h.read ptr
      countFrom h l fuel (numFound + 1) c.next

/-- `List::SanityCheck`. -/
def sanityCheck (fuel : ℕ) (h : Heap α) (l : LinkedList) : Except Fault Unit := do
  if l.first = none then assert (l.numInList = 0 && l.last = none)
  else if l.first = l.last then
    assert (l.numInList = 1)
    let c ← h.read l.last
    assert (c.next = none)
  else
    let numFound ← countFrom h l fuel 1 l.first
    assert (numFound = l.numInList)
    let c ← h.read l.last
    assert (c.next = none)

/-! ## What an operation touches -/

/-- The elements of other lists are left alone; the list has its own elements and new ones. -/
structure Touches (h h' : Heap α) (cells cells' : List (ℕ × α)) : Prop where
  brk : h.brk ≤ h'.brk
  others : ∀ b, b < h.brk → b ∉ cells.map Prod.fst → h'.cells b = h.cells b
  own : ∀ b ∈ cells'.map Prod.fst, b ∈ cells.map Prod.fst ∨ h.brk ≤ b

/-- A list with none of the elements that are touched. -/
theorem Holds.frame (holds : l.Holds h others) (touches : Touches h h' cells cells')
    (apart : (cells.map Prod.fst).Disjoint (others.map Prod.fst)) : l.Holds h' others where
  segment := holds.segment.frame fun c mem =>
    touches.others c.1 (holds.allocated c mem) fun own => apart own (List.mem_map_of_mem mem)
  last := holds.last
  numInList := holds.numInList
  nodup := holds.nodup
  allocated c mem := (holds.allocated c mem).trans_le touches.brk

theorem Touches.apart (touches : Touches h h' cells cells') (holds : l.Holds h others)
    (apart : (cells.map Prod.fst).Disjoint (others.map Prod.fst)) : (cells'.map Prod.fst).Disjoint (others.map Prod.fst) := by
  intro b own other
  obtain old | new := touches.own b own
  · exact apart old other
  · obtain ⟨c, mem, rfl⟩ := List.mem_map.1 other
    exact absurd (holds.allocated c mem) (not_lt.2 new)

/-- There are no more elements than were ever allocated. -/
theorem Holds.length_le (holds : l.Holds h cells) : cells.length ≤ h.brk := by
  have within : cells.map Prod.fst ⊆ List.range h.brk := by
    intro b own
    obtain ⟨c, mem, rfl⟩ := List.mem_map.1 own
    exact List.mem_range.2 (holds.allocated c mem)
  have short := (List.subperm_of_subset holds.nodup within).length_le
  rwa [List.length_map, List.length_range] at short

theorem Holds.isEmpty (holds : l.Holds h cells) : l.isEmpty = cells.isEmpty := by
  rw [LinkedList.isEmpty, holds.numInList]
  cases cells with
  | nil => rfl
  | cons c cells => exact decide_eq_false (by rw [List.length_cons]; omega)

theorem isInList_ok [DecidableEq α] (segment : Segment h l.first cells none) (enough : cells.length ≤ fuel) (item : α) :
    l.isInList fuel h item = .ok (decide (item ∈ cells.map Prod.snd)) := isInListFrom_ok segment enough item

/-! ## Reading -/

theorem applyFrom_ok (segment : Segment h p cells none) (enough : cells.length ≤ fuel) :
    applyFrom h fuel p = .ok (cells.map Prod.snd) := by
  induction cells generalizing p fuel with
  | nil =>
    obtain rfl : p = none := segment
    cases fuel <;> rfl
  | cons c cells ih =>
    obtain ⟨rfl, n, here, rest⟩ := segment
    cases fuel with
    | zero => exact absurd enough (by simp)
    | succ fuel =>
      rw [applyFrom, Heap.read_some here]
      change (applyFrom h fuel n >>= _) = _
      rw [ih rest (by simpa using enough)]
      rfl

/-- The loop gets to the last element. -/
theorem countFrom_ok {n : ℤ} (segment : Segment h p cells none) (nonempty : cells ≠ []) (nodup : (cells.map Prod.fst).Nodup)
    (last : l.last = cells.getLast?.map Prod.fst) (total : l.numInList = n + cells.length - 1) (enough : cells.length ≤ fuel) :
    countFrom h l fuel n p = .ok l.numInList ∧ ∃ c, h.read l.last = .ok c ∧ c.next = none := by
  induction cells generalizing p fuel n with
  | nil => exact absurd rfl nonempty
  | cons c cells ih =>
    obtain ⟨rfl, next, here, rest⟩ := segment
    cases fuel with
    | zero => exact absurd enough (by simp)
    | succ fuel =>
      rw [List.length_cons] at total enough
      cases cells with
      | nil =>
        obtain rfl : next = none := rest
        have at_last : some c.1 = l.last := last.symm
        rw [countFrom, if_pos at_last, ← at_last]
        refine ⟨?_, _, Heap.read_some here, rfl⟩
        rw [total]
        exact congrArg Except.ok (by simp)
      | cons d cells =>
        rw [List.getLast?_cons_cons] at last
        rw [List.map_cons, List.nodup_cons] at nodup
        have before : some c.1 ≠ l.last := by
          rw [last]
          intro same
          obtain ⟨e, mem, same⟩ := Option.map_eq_some_iff.1 same.symm
          exact nodup.1 (List.mem_map.2 ⟨e, List.mem_of_getLast? mem, same⟩)
        have more : n + 1 ≤ l.numInList := by
          rw [total, List.length_cons]
          omega
        rw [countFrom, if_neg before, decide_eq_true more, Heap.read_some here]
        exact ih rest (List.cons_ne_nil _ _) nodup.2 last (by omega) (by omega)

/-- **A list passes its check.** -/
theorem sanityCheck_ok (holds : l.Holds h cells) (enough : cells.length ≤ fuel) : l.sanityCheck fuel h = .ok () := by
  cases cells with
  | nil =>
    have first : l.first = none := holds.segment
    have last : l.last = none := holds.last
    have count : l.numInList = 0 := holds.numInList
    rw [sanityCheck, if_pos first, last, count]
    rfl
  | cons c cells =>
    have first : l.first = some c.1 := holds.segment.1
    have total : l.numInList = 1 + (c :: cells).length - 1 := by rw [holds.numInList]; omega
    obtain ⟨count, d, read, end_⟩ := countFrom_ok holds.segment (List.cons_ne_nil _ _) holds.nodup holds.last total enough
    rw [sanityCheck, if_neg (by rw [first]; exact Option.some_ne_none _)]
    split_ifs with one
    · have single : l.numInList = 1 := by
        cases fuel with
        | zero => exact absurd enough (by simp)
        | succ fuel =>
          rw [countFrom, if_pos one] at count
          exact (Except.ok.inj count).symm
      rw [decide_eq_true single, read]
      exact congrArg assert (decide_eq_true end_)
    · rw [count, read]
      change assert (decide (l.numInList = l.numInList)) >>= _ = _
      rw [decide_eq_true rfl]
      exact congrArg assert (decide_eq_true end_)

/-! ## New elements -/

/-- The list once a new element is linked. -/
theorem Holds.added (holds : l.Holds h cells) {first last : Ptr} (perm : cells'.Perm ((h.brk, item) :: cells))
    (brk : h'.brk = h.brk + 1) (segment : Segment h' first cells' none) (end_ : last = cells'.getLast?.map Prod.fst) :
    Holds h' ⟨first, last, l.numInList + 1⟩ cells' := by
  refine ⟨segment, end_, ?_, ?_, ?_⟩
  · rw [perm.length_eq, holds.numInList]
    rfl
  · rw [(perm.map Prod.fst).nodup_iff, List.map_cons, List.nodup_cons]
    refine ⟨fun mem => ?_, holds.nodup⟩
    obtain ⟨c, mem, same⟩ := List.mem_map.1 mem
    exact absurd (holds.allocated c mem) (same ▸ lt_irrefl _)
  · intro c mem
    rw [brk]
    obtain rfl | mem := List.mem_cons.1 (perm.subset mem)
    · exact Nat.lt_succ_self _
    · exact Nat.lt_succ_of_lt (holds.allocated c mem)

theorem Touches.added (perm : cells'.Perm ((h.brk, item) :: cells)) (brk : h'.brk = h.brk + 1)
    (keep : ∀ b, b ≠ h.brk → b ∉ cells.map Prod.fst → h'.cells b = h.cells b) : Touches h h' cells cells' where
  brk := brk ▸ Nat.le_succ _
  others b old outside := keep b old.ne outside
  own b mem := by
    rw [(perm.map Prod.fst).mem_iff, List.map_cons, List.mem_cons] at mem
    obtain rfl | mem := mem
    · exact .inr le_rfl
    · exact .inl mem

/-- An element was made and linked. -/
structure Added (h h' : Heap α) (l' : LinkedList) (cells cells' : List (ℕ × α)) : Prop where
  holds : l'.Holds h' cells'
  brk : h'.brk = h.brk + 1
  touches : Touches h h' cells cells'

/-- The last element is one of the list. -/
theorem Holds.last_mem (holds : l.Holds h cells) (last : l.last = some a) : a ∈ cells.map Prod.fst := by
  rw [holds.last] at last
  obtain ⟨c, mem, rfl⟩ := Option.map_eq_some_iff.1 last
  exact List.mem_map_of_mem (List.mem_of_getLast? mem)

/-- **`List::Append`.** -/
theorem append_ok [DecidableEq α] (holds : l.Holds h cells) (new : item ∉ cells.map Prod.snd) (enough : cells.length < fuel) :
    ∃ h' l', l.append fuel h item = .ok (h', l') ∧ Added h h' l' cells (cells ++ [(h.brk, item)]) := by
  obtain ⟨h₀, alloc, brk, at_new, kept⟩ := Heap.alloc_eq h ⟨item, none⟩
  have other : h.brk ∉ cells.map Prod.fst := by
    intro mem
    obtain ⟨c, mem, same⟩ := List.mem_map.1 mem
    exact absurd (holds.allocated c mem) (same ▸ lt_irrefl _)
  have segment : Segment h₀ l.first cells none := holds.segment.frame fun c mem => kept c.1 (holds.allocated c mem).ne
  have perm : (cells ++ [(h.brk, item)]).Perm ((h.brk, item) :: cells) := List.perm_append_comm
  have mem : item ∈ (cells ++ [(h.brk, item)]).map Prod.snd := by simp
  have length : (cells ++ [(h.brk, item)]).length ≤ fuel := by
    rw [List.length_append]
    exact enough
  rw [append, alloc]
  dsimp only
  rw [isInList_ok segment enough.le, decide_eq_false new]
  rw [holds.isEmpty]
  cases cells with
  | nil =>
    have linked : Segment h₀ (some h.brk) [(h.brk, item)] none := ⟨rfl, none, at_new, rfl⟩
    have held : Holds h₀ ⟨some h.brk, some h.brk, l.numInList + 1⟩ _ := holds.added perm brk linked rfl
    refine ⟨h₀, ⟨some h.brk, some h.brk, l.numInList + 1⟩, ?_, held, brk, .added perm brk fun b ne _ => kept b ne⟩
    change (isInList fuel h₀ ⟨some h.brk, some h.brk, l.numInList + 1⟩ item >>= _) = _
    rw [isInList_ok held.segment length, decide_eq_true mem]
    rfl
  | cons c rest =>
    obtain ⟨h₁, set, brk₁, linked⟩ := segment.hang (List.cons_ne_nil c rest) holds.nodup at_new other
    rw [← holds.last] at set
    have end_ : some h.brk = (c :: rest ++ [(h.brk, item)]).getLast?.map Prod.fst := by
      rw [List.getLast?_append_cons]
      rfl
    have held := holds.added perm (brk₁.trans brk) linked end_
    refine ⟨h₁, ⟨l.first, some h.brk, l.numInList + 1⟩, ?_, held, brk₁.trans brk, .added perm (brk₁.trans brk) ?_⟩
    · change (h₀.setNext l.last (some h.brk) >>= _) = _
      rw [set]
      change (isInList fuel h₁ ⟨l.first, some h.brk, l.numInList + 1⟩ item >>= _) = _
      rw [isInList_ok held.segment length, decide_eq_true mem]
      rfl
    · intro b ne outside
      exact ((Heap.setNext_keeps set).2 b fun last => outside (holds.last_mem last)).trans (kept b ne)

/-- **`List::Prepend`.** -/
theorem prepend_ok [DecidableEq α] (holds : l.Holds h cells) (new : item ∉ cells.map Prod.snd) (enough : cells.length < fuel) :
    ∃ h' l', l.prepend fuel h item = .ok (h', l') ∧ Added h h' l' cells ((h.brk, item) :: cells) := by
  obtain ⟨h₀, alloc, brk, at_new, kept⟩ := Heap.alloc_eq h ⟨item, none⟩
  have segment : Segment h₀ l.first cells none := holds.segment.frame fun c mem => kept c.1 (holds.allocated c mem).ne
  have perm : ((h.brk, item) :: cells).Perm ((h.brk, item) :: cells) := .refl _
  have mem : item ∈ ((h.brk, item) :: cells).map Prod.snd := by simp
  have length : ((h.brk, item) :: cells).length ≤ fuel := enough
  rw [prepend, alloc]
  dsimp only
  rw [isInList_ok segment enough.le, decide_eq_false new]
  rw [holds.isEmpty]
  cases cells with
  | nil =>
    have linked : Segment h₀ (some h.brk) [(h.brk, item)] none := ⟨rfl, none, at_new, rfl⟩
    have held : Holds h₀ ⟨some h.brk, some h.brk, l.numInList + 1⟩ _ := holds.added perm brk linked rfl
    refine ⟨h₀, ⟨some h.brk, some h.brk, l.numInList + 1⟩, ?_, held, brk, .added perm brk fun b ne _ => kept b ne⟩
    change (isInList fuel h₀ ⟨some h.brk, some h.brk, l.numInList + 1⟩ item >>= _) = _
    rw [isInList_ok held.segment length, decide_eq_true mem]
    rfl
  | cons c rest =>
    obtain ⟨h₁, set, brk₁, at₁, keep⟩ := Heap.setNext_some at_new l.first
    have linked : Segment h₁ (some h.brk) ((h.brk, item) :: c :: rest) none :=
      ⟨rfl, l.first, at₁, segment.frame fun d mem => keep d.1 (holds.allocated d mem).ne⟩
    have end_ : l.last = ((h.brk, item) :: c :: rest).getLast?.map Prod.fst := by
      rw [List.getLast?_cons_cons]
      exact holds.last
    have held := holds.added perm (brk₁.trans brk) linked end_
    refine ⟨h₁, ⟨some h.brk, l.last, l.numInList + 1⟩, ?_, held, brk₁.trans brk, .added perm (brk₁.trans brk) ?_⟩
    · change (h₀.setNext (some h.brk) l.first >>= _) = _
      rw [set]
      change (isInList fuel h₁ ⟨some h.brk, l.last, l.numInList + 1⟩ item >>= _) = _
      rw [isInList_ok held.segment length, decide_eq_true mem]
      rfl
    · intro b ne _
      exact (keep b ne).trans (kept b ne)

/-! ## Removal -/

/-- Elements were unlinked and deleted. -/
structure Dropped (h h' : Heap α) (l' : LinkedList) (cells cells' : List (ℕ × α)) : Prop where
  holds : l'.Holds h' cells'
  touches : Touches h h' cells cells'

theorem Touches.dropped (sub : cells'.Sublist cells) (brk : h'.brk = h.brk)
    (keep : ∀ b, b ∉ cells.map Prod.fst → h'.cells b = h.cells b) : Touches h h' cells cells' where
  brk := brk.ge
  others b _ outside := keep b outside
  own _ mem := .inl ((sub.map Prod.fst).subset mem)

theorem Heap.delete_keeps (p : Ptr) (other : p ≠ some b) : (h.delete p).cells b = h.cells b := by
  cases p with
  | none => rfl
  | some a => exact Function.update_of_ne (fun same => other (congrArg some same.symm)) _ _

/-- **`List::RemoveFront`.** -/
theorem removeFront_touches (holds : l.Holds h ((a, x) :: cells)) :
    ∃ h' l', l.removeFront h = .ok (x, h', l') ∧ h'.brk = h.brk ∧ Dropped h h' l' ((a, x) :: cells) cells := by
  obtain ⟨h', l', done, held⟩ := removeFront_ok holds
  have deleted : h' = h.delete l.first := by
    obtain ⟨_, -, done⟩ := bind_ok done
    obtain ⟨c, -, done⟩ := bind_ok done
    cases done
    rfl
  have brk : h'.brk = h.brk := by
    rw [deleted, holds.segment.1]
    rfl
  refine ⟨h', l', done, brk, held, .dropped (List.sublist_cons_self _ _) brk fun b outside => ?_⟩
  rw [deleted]
  apply Heap.delete_keeps
  rw [holds.segment.1]
  exact fun same => outside (Option.some.inj same ▸ List.mem_cons_self)

theorem removeFront_empty (holds : l.Holds h []) : l.removeFront h = .error .assertion := by
  rw [removeFront, holds.isEmpty]
  rfl

variable [DecidableEq α]

/-- The elements without the first that has the item. -/
def without (item : α) (cells : List (ℕ × α)) : List (ℕ × α) := cells.eraseP fun c => item = c.2

theorem without_cons (item : α) (c : ℕ × α) (cells : List (ℕ × α)) :
    without item (c :: cells) = if item = c.2 then cells else c :: without item cells := by
  rw [without, List.eraseP_cons]
  by_cases same : item = c.2
  · rw [decide_eq_true same, if_pos same]
    rfl
  · rw [decide_eq_false same, if_neg same]
    rfl

theorem without_sublist (item : α) (cells : List (ℕ × α)) : (without item cells).Sublist cells := List.eraseP_sublist

theorem map_without (item : α) (cells : List (ℕ × α)) : (without item cells).map Prod.snd = (cells.map Prod.snd).erase item := by
  induction cells with
  | nil => rfl
  | cons c cells ih =>
    rw [without_cons, List.map_cons, List.erase_cons]
    by_cases same : item = c.2
    · rw [if_pos same, same, beq_self_eq_true]
      rfl
    · rw [if_neg same, if_neg (by simpa using Ne.symm same), List.map_cons, ih]

theorem length_without {cells : List (ℕ × α)} (mem : item ∈ cells.map Prod.snd) :
    ((without item cells).length : ℤ) = cells.length - 1 := by
  have shorter := congrArg List.length (map_without item cells)
  have pos := List.length_pos_of_mem mem
  rw [List.length_map, List.length_erase_of_mem mem, List.length_map] at shorter
  rw [List.length_map] at pos
  omega

/-- The loop unlinks the first element with the item. -/
theorem removeBehind_ok (here : h.cells a = some ⟨x, p⟩) (segment : Segment h p cells none) (nodup : (a :: cells.map Prod.fst).Nodup)
    (mem : item ∈ cells.map Prod.snd) (last : l.last = ((a, x) :: cells).getLast?.map Prod.fst) (enough : cells.length ≤ fuel) :
    ∃ h' end_, removeBehind item h l fuel (some a) p = .ok (h', ⟨l.first, end_, l.numInList - 1⟩) ∧
      Segment h' (some a) ((a, x) :: without item cells) none ∧ end_ = ((a, x) :: without item cells).getLast?.map Prod.fst ∧
      h'.brk = h.brk ∧ ∀ b, b ∉ a :: cells.map Prod.fst → h'.cells b = h.cells b := by
  induction cells generalizing a x p fuel with
  | nil => cases mem
  | cons c cells ih =>
    obtain ⟨b, y⟩ := c
    obtain ⟨rfl, n, there, rest⟩ := segment
    cases fuel with
    | zero => exact absurd enough (by simp)
    | succ fuel =>
      rw [List.map_cons] at nodup
      obtain ⟨outside, nodup'⟩ := List.nodup_cons.1 nodup
      rw [removeBehind, Heap.read_some there, without_cons]
      change ∃ h' end_, (if item = y then _ else _) = _ ∧ _
      by_cases found : item = y
      · obtain ⟨h₁, set, brk, at_a, keep⟩ := Heap.setNext_some here n
        dsimp only
        rw [if_pos found, if_pos found, set]
        have linked : Segment (h₁.delete (some b)) (some a) ((a, x) :: cells) none := by
          refine ⟨rfl, n, ?_, rest.frame fun d mem => ?_⟩
          · rw [Heap.delete_keeps (some b) fun same => outside (by rw [← Option.some.inj same]; exact List.mem_cons_self), at_a]
          · have behind := List.mem_map_of_mem (f := Prod.fst) mem
            rw [Heap.delete_keeps (some b) fun same => (List.nodup_cons.1 nodup').1 (by rw [← Option.some.inj same] at behind; exact behind),
              keep _ fun same => outside (same ▸ List.mem_cons_of_mem _ behind)]
        refine ⟨_, _, rfl, linked, ?_, brk, ?_⟩
        · cases cells with
          | nil =>
            obtain rfl : n = none := rest
            rfl
          | cons d cells =>
            rw [if_neg (by rw [rest.1]; exact Option.some_ne_none _), last]
            simp only [List.getLast?_cons_cons]
        · intro d other
          rw [List.mem_cons, List.map_cons, List.mem_cons, not_or, not_or] at other
          rw [Heap.delete_keeps _ fun same => other.2.1 (Option.some.inj same).symm, keep d other.1]
      · dsimp only
        rw [if_neg found, if_neg found]
        have later : item ∈ cells.map Prod.snd := by
          rw [List.map_cons, List.mem_cons] at mem
          exact mem.resolve_left found
        rw [List.getLast?_cons_cons] at last
        obtain ⟨h', end_, done, linked, at_end, brk, keep⟩ := ih there rest nodup' later last (by simpa using enough)
        refine ⟨h', end_, done, ⟨rfl, some b, (keep a outside).trans here, linked⟩, ?_, brk, ?_⟩
        · rw [at_end, List.getLast?_cons_cons]
        · intro d other
          rw [List.mem_cons, not_or] at other
          exact keep d other.2

/-- **`List::Remove`.** -/
theorem remove_ok (holds : l.Holds h cells) (distinct : (cells.map Prod.snd).Nodup) (mem : item ∈ cells.map Prod.snd)
    (enough : cells.length ≤ fuel) :
    ∃ h' l', l.remove fuel h item = .ok (h', l') ∧ h'.brk = h.brk ∧ Dropped h h' l' cells (without item cells) := by
  have taken : ∃ h' l', l.takeOut fuel h item = .ok (h', l') ∧ h'.brk = h.brk ∧ Dropped h h' l' cells (without item cells) := by
    cases cells with
    | nil => cases mem
    | cons c cells =>
      obtain ⟨a, x⟩ := c
      obtain ⟨first, n, here, rest⟩ := holds.segment
      rw [takeOut, first, Heap.read_some here, without_cons]
      change ∃ h' l', (if item = x then _ else _) = _ ∧ _
      dsimp only
      by_cases front : item = x
      · rw [if_pos front, if_pos front]
        obtain ⟨h', l', done, brk, dropped⟩ := removeFront_touches holds
        refine ⟨h', l', ?_, brk, dropped⟩
        rw [done]
        change assert (decide (item = x)) >>= _ = _
        rw [decide_eq_true front]
        rfl
      · rw [if_neg front, if_neg front]
        have later : item ∈ cells.map Prod.snd := by
          rw [List.map_cons, List.mem_cons] at mem
          exact mem.resolve_left front
        have kept : without item ((a, x) :: cells) = (a, x) :: without item cells := by rw [without_cons, if_neg front]
        have length := length_without mem
        rw [kept] at length
        have sub := without_sublist item ((a, x) :: cells)
        rw [kept] at sub
        obtain ⟨h', end_, done, linked, at_end, brk, keep⟩ :=
          removeBehind_ok here rest holds.nodup later holds.last ((Nat.le_succ _).trans enough)
        refine ⟨h', _, done, brk, ⟨?_, at_end, ?_, (sub.map _).nodup holds.nodup, ?_⟩, .dropped sub brk keep⟩
        · rw [first]
          exact linked
        · rw [length, holds.numInList]
        · intro d mem
          rw [brk]
          exact holds.allocated d (sub.subset mem)
  obtain ⟨h', l', done, brk, dropped⟩ := taken
  have gone : item ∉ (without item cells).map Prod.snd := by
    rw [map_without]
    exact distinct.not_mem_erase
  have short := (without_sublist item cells).length_le.trans enough
  refine ⟨h', l', ?_, brk, dropped⟩
  rw [remove, isInList_ok holds.segment enough, decide_eq_true mem]
  change (l.takeOut fuel h item >>= _) = _
  rw [done]
  change (l'.isInList fuel h' item >>= _) = _
  rw [isInList_ok dropped.holds.segment short, decide_eq_false gone]
  rfl

/-! ## What no list can do -/

theorem remove_missing (holds : l.Holds h cells) (missing : item ∉ cells.map Prod.snd) (enough : cells.length ≤ fuel) :
    l.remove fuel h item = .error .assertion := by
  rw [remove, isInList_ok holds.segment enough, decide_eq_false missing]
  rfl

theorem isInList_alloc (holds : l.Holds h cells) (enough : cells.length ≤ fuel) :
    l.isInList fuel (h.alloc ⟨x, none⟩).2 item = .ok (decide (item ∈ cells.map Prod.snd)) := by
  obtain ⟨h₀, alloc, fresh⟩ := holds.alloc x
  rw [alloc]
  exact isInList_ok fresh.segment enough item

theorem append_present (holds : l.Holds h cells) (mem : item ∈ cells.map Prod.snd) (enough : cells.length ≤ fuel) :
    l.append fuel h item = .error .assertion := by
  have found : l.isInList fuel (h.alloc ⟨item, none⟩).2 item = _ := isInList_alloc holds enough
  rw [decide_eq_true mem] at found
  simp only [append, found]
  rfl

theorem prepend_present (holds : l.Holds h cells) (mem : item ∈ cells.map Prod.snd) (enough : cells.length ≤ fuel) :
    l.prepend fuel h item = .error .assertion := by
  have found : l.isInList fuel (h.alloc ⟨item, none⟩).2 item = _ := isInList_alloc holds enough
  rw [decide_eq_true mem] at found
  simp only [prepend, found]
  rfl

/-! ## Insertion in order -/

omit [DecidableEq α] in
theorem finish_heap [DecidableEq α] {m : LinkedList} (done : insert.finish fuel item h m = .ok (h', l')) : h' = h := by
  obtain ⟨_, -, done⟩ := bind_ok done
  obtain ⟨_, -, done⟩ := bind_ok done
  cases done
  rfl

/-- An insertion touches the elements of the list and the new one. -/
theorem insert_keeps (holds : l.Holds h cells) (enough : cells.length < fuel) (done : l.insert compare fuel h item = .ok (h', l')) :
    h'.brk = h.brk + 1 ∧ ∀ b, b ≠ h.brk → b ∉ cells.map Prod.fst → h'.cells b = h.cells b := by
  obtain ⟨h₀, alloc, brk, -, kept⟩ := Heap.alloc_eq h ⟨item, none⟩
  obtain ⟨h₀', alloc', fresh⟩ := holds.alloc item
  obtain rfl : h₀ = h₀' := congrArg Prod.snd (alloc.symm.trans alloc')
  rw [insert, alloc] at done
  obtain ⟨_, -, done⟩ := bind_ok done
  obtain ⟨_, -, done⟩ := bind_ok done
  split at done
  · rw [finish_heap done]
    exact ⟨brk, fun b ne _ => kept b ne⟩
  obtain ⟨c, read, done⟩ := bind_ok done
  split at done
  · obtain ⟨h₁, set, done⟩ := bind_ok done
    obtain ⟨brk₁, keep⟩ := Heap.setNext_keeps set
    rw [finish_heap done]
    exact ⟨brk₁.trans brk, fun b ne _ => (keep b fun same => ne (Option.some.inj same).symm).trans (kept b ne)⟩
  obtain ⟨r, loop, done⟩ := bind_ok done
  cases r with
  | none =>
    obtain ⟨h₁, set, done⟩ := bind_ok done
    obtain ⟨brk₁, keep⟩ := Heap.setNext_keeps set
    rw [finish_heap done]
    exact ⟨brk₁.trans brk, fun b ne outside => (keep b fun last => outside (holds.last_mem last)).trans (kept b ne)⟩
  | some h₁ =>
    cases done
    cases cells with
    | nil =>
      rw [show l.first = none from holds.segment] at read
      cases read
    | cons d rest =>
      obtain ⟨a, x⟩ := d
      have first : l.first = some a := holds.segment.1
      rw [first] at loop
      obtain ⟨none, -⟩ | ⟨h₂, found, brk₁, -, -, keep⟩ :=
        insertBefore_ok (first ▸ fresh.segment) holds.nodup fresh.new fresh.other (Nat.lt_of_succ_lt enough)
      · cases loop.symm.trans none
      · cases loop.symm.trans found
        exact ⟨brk₁.trans brk, fun b ne outside => (keep b outside ne).trans (kept b ne)⟩

/-- **`SortedList::Insert`.** -/
theorem insert_added (holds : l.Holds h cells) (new : item ∉ cells.map Prod.snd) (enough : cells.length < fuel) :
    ∃ h' l', l.insert compare fuel h item = .ok (h', l') ∧
      Added h h' l' cells (cells.orderedInsert (Before compare) (h.brk, item)) := by
  have inserted : ∃ h' l', l.insert compare fuel h item = .ok (h', l') ∧ _ := insert_ok holds new enough
  obtain ⟨h', l', done, held⟩ := inserted
  obtain ⟨brk, keep⟩ := insert_keeps holds enough done
  exact ⟨h', l', done, held, brk, .added (List.perm_orderedInsert _ _ _) brk keep⟩

theorem insert_present (holds : l.Holds h cells) (mem : item ∈ cells.map Prod.snd) (enough : cells.length ≤ fuel) :
    l.insert compare fuel h item = .error .assertion := by
  have found : l.isInList fuel (h.alloc ⟨item, none⟩).2 item = _ := isInList_alloc holds enough
  rw [decide_eq_true mem] at found
  simp only [insert, found]
  rfl

end LinkedList

/-! ## Many lists -/

open LinkedList

/-- Lists with their elements in one heap. -/
structure Lists (ι α : Type) where
  heap : Heap α
  list : ι → LinkedList

/-- The lists as the constructors leave them. -/
def Lists.empty (ι α : Type) : Lists ι α := ⟨.empty, fun _ => ⟨none, none, 0⟩⟩

/-- The lists have the elements `cells`, no element is in two lists, and no item twice in one. -/
structure Lists.Hold {ι α : Type} (s : Lists ι α) (cells : ι → List (ℕ × α)) : Prop where
  holds : ∀ i, (s.list i).Holds s.heap (cells i)
  apart : ∀ i j, i ≠ j → ((cells i).map Prod.fst).Disjoint ((cells j).map Prod.fst)
  distinct : ∀ i, ((cells i).map Prod.snd).Nodup

namespace Lists

variable {ι α : Type} {s s' : Lists ι α} {cells : ι → List (ℕ × α)} {i : ι} {item : α} {fuel : ℕ}

/-- The lists after an operation on one of them. -/
def set [DecidableEq ι] (s : Lists ι α) (i : ι) (r : Heap α × LinkedList) : Lists ι α := ⟨r.1, Function.update s.list i r.2⟩

theorem Hold.empty : (Lists.empty ι α).Hold fun _ => [] where
  holds _ := ⟨rfl, rfl, rfl, List.nodup_nil, fun _ mem => by cases mem⟩
  apart _ _ _ := List.disjoint_nil_left _
  distinct _ := List.nodup_nil

/-- Fewer rounds than elements that were ever allocated are enough. -/
theorem Hold.enough (hold : s.Hold cells) (i : ι) (enough : s.heap.brk < fuel) : (cells i).length < fuel :=
  (hold.holds i).length_le.trans_lt enough

/-- **The frame rule**: an operation on one list keeps the others. -/
theorem Hold.update [DecidableEq ι] (hold : s.Hold cells) {h' : Heap α} {l' : LinkedList} {new : List (ℕ × α)} (holds : l'.Holds h' new)
    (touches : Touches s.heap h' (cells i) new) (distinct : (new.map Prod.snd).Nodup) :
    (s.set i (h', l')).Hold (Function.update cells i new) where
  holds j := by
    show (Function.update s.list i l' j).Holds h' (Function.update cells i new j)
    rcases eq_or_ne j i with rfl | other
    · rw [Function.update_self, Function.update_self]
      exact holds
    · rw [Function.update_of_ne other, Function.update_of_ne other]
      exact (hold.holds j).frame touches (hold.apart i j other.symm)
  apart j k ne := by
    rcases eq_or_ne j i with rfl | otherj
    · rw [Function.update_self, Function.update_of_ne ne.symm]
      exact touches.apart (hold.holds k) (hold.apart j k ne)
    rw [Function.update_of_ne otherj]
    rcases eq_or_ne k i with rfl | otherk
    · rw [Function.update_self]
      exact List.disjoint_symm (touches.apart (hold.holds j) (hold.apart k j ne.symm))
    · rw [Function.update_of_ne otherk]
      exact hold.apart j k ne
  distinct j := by
    rcases eq_or_ne j i with rfl | other
    · rw [Function.update_self]
      exact distinct
    · rw [Function.update_of_ne other]
      exact hold.distinct j

end Lists

end Nachos.Mp3
