import Mathlib.Data.List.Chain
import Nachos.Mp3.Lists

/-!
# Clients of lists

Any number of `List` and `SortedList` objects are sequences of items: whatever calls are made on them, in
any order, they answer as the sequences do.
-/

namespace Nachos.Mp3
open Cells Transition LinkedList

variable {ι α : Type} [DecidableEq ι] [DecidableEq α]

inductive ListCall (ι α : Type) where
  | append (i : ι) (item : α)
  | prepend (i : ι) (item : α)
  | removeFront (i : ι)
  | remove (i : ι) (item : α)
  | isInList (i : ι) (item : α)
  | numInList (i : ι)
  | apply (i : ι)
  | sanityCheck (i : ι)

inductive ListAnswer (α : Type) where
  | done
  | item (x : α)
  | found (b : Bool)
  | count (n : ℤ)
  | items (xs : List α)

/-- The loop of `SortedList::SanityCheck`. -/
def LinkedList.orderFrom (compare : α → α → ℤ) (h : Heap α) : ℕ → Ptr → Ptr → Except Fault Unit
  | _, _, none => pure ()
  | 0, _, some _ => throw .diverges
  | fuel + 1, prev, some ptr => do
    let before ← h.read prev
    let c ← h.read (some ptr)
    assert (compare before.item c.item ≤ 0)
    orderFrom compare h fuel (some ptr) c.next

/-- `SortedList::SanityCheck`. -/
def LinkedList.sortedCheck (compare : α → α → ℤ) (fuel : ℕ) (h : Heap α) (l : LinkedList) : Except Fault Unit := do
  l.sanityCheck fuel h
  if l.first = l.last then pure ()
  else
    let c ← h.read l.first
    orderFrom compare h fuel l.first c.next

/-- The virtual `Append`: a list with a comparison is a `SortedList`, where it is `Insert`. -/
def LinkedList.appendTo (compare : Option (α → α → ℤ)) (fuel : ℕ) (h : Heap α) (l : LinkedList) (item : α) :
    Except Fault (Heap α × LinkedList) :=
  match compare with
  | none => l.append fuel h item
  | some compare => l.insert compare fuel h item

/-- The virtual `Prepend`. -/
def LinkedList.prependTo (compare : Option (α → α → ℤ)) (fuel : ℕ) (h : Heap α) (l : LinkedList) (item : α) :
    Except Fault (Heap α × LinkedList) :=
  match compare with
  | none => l.prepend fuel h item
  | some compare => l.insert compare fuel h item

/-- The virtual `SanityCheck`. -/
def LinkedList.check (compare : Option (α → α → ℤ)) (fuel : ℕ) (h : Heap α) (l : LinkedList) : Except Fault Unit :=
  match compare with
  | none => l.sanityCheck fuel h
  | some compare => l.sortedCheck compare fuel h

/-- One call. -/
def Lists.call (compare : ι → Option (α → α → ℤ)) (fuel : ℕ) (s : Lists ι α) : ListCall ι α → Except Fault (ListAnswer α × Lists ι α)
  | .append i item => do
    let r ← (s.list i).appendTo (compare i) fuel s.heap item
    pure (.done, s.set i r)
  | .prepend i item => do
    let r ← (s.list i).prependTo (compare i) fuel s.heap item
    pure (.done, s.set i r)
  | .removeFront i => do
    let (x, r) ← (s.list i).removeFront s.heap
    pure (.item x, s.set i r)
  | .remove i item => do
    let r ← (s.list i).remove fuel s.heap item
    pure (.done, s.set i r)
  | .isInList i item => do
    let b ← (s.list i).isInList fuel s.heap item
    pure (.found b, s)
  | .numInList i => pure (.count (s.list i).numInList, s)
  | .apply i => do
    let xs ← (s.list i).apply fuel s.heap
    pure (.items xs, s)
  | .sanityCheck i => do
    (s.list i).check (compare i) fuel s.heap
    pure (.done, s)

/-! ## Sequences -/

/-- Items next to each other are in order. -/
def InOrder (compare : α → α → ℤ) (xs : List α) : Prop := xs.IsChain fun a b => compare a b ≤ 0

instance (compare : α → α → ℤ) (xs : List α) : Decidable (InOrder compare xs) :=
  inferInstanceAs (Decidable (xs.IsChain fun a b => compare a b ≤ 0))

/-- Where a new item goes: to the end, or before the first that is bigger. -/
def appendItems (compare : Option (α → α → ℤ)) (xs : List α) (item : α) : List α :=
  match compare with
  | none => xs ++ [item]
  | some compare => xs.orderedInsert (fun a b => compare a b < 0) item

def prependItems (compare : Option (α → α → ℤ)) (xs : List α) (item : α) : List α :=
  match compare with
  | none => item :: xs
  | some compare => xs.orderedInsert (fun a b => compare a b < 0) item

/-- A call on sequences; `none` is a failed `ASSERT`. -/
def ListCall.on (compare : ι → Option (α → α → ℤ)) (xs : ι → List α) : ListCall ι α → Option (ListAnswer α × (ι → List α))
  | .append i item =>
    if item ∈ xs i then none
    else some (.done, Function.update xs i (appendItems (compare i) (xs i) item))
  | .prepend i item =>
    if item ∈ xs i then none
    else some (.done, Function.update xs i (prependItems (compare i) (xs i) item))
  | .removeFront i =>
    match xs i with
    | [] => none
    | x :: rest => some (.item x, Function.update xs i rest)
  | .remove i item => if item ∈ xs i then some (.done, Function.update xs i ((xs i).erase item)) else none
  | .isInList i item => some (.found (decide (item ∈ xs i)), xs)
  | .numInList i => some (.count (xs i).length, xs)
  | .apply i => some (.items (xs i), xs)
  | .sanityCheck i => if ∀ c ∈ compare i, InOrder c (xs i) then some (.done, xs) else none

/-! ## Lists as sequences -/

variable {s s' : Lists ι α} {cells : ι → List (ℕ × α)} {compare : ι → Option (α → α → ℤ)} {fuel : ℕ} {i : ι} {item x : α}
  {h : Heap α} {l : LinkedList} {own : List (ℕ × α)} {a : ℕ} {p : Ptr} {comp : α → α → ℤ} {xs xs' : ι → List α}

omit [DecidableEq ι] [DecidableEq α] in
/-- The loop checks each item against the one before it. -/
theorem orderFrom_eq {n : Ptr} (here : h.cells a = some ⟨x, n⟩) (segment : Segment h p own none) (enough : own.length ≤ fuel) :
    orderFrom comp h fuel (some a) p = assert (decide (InOrder comp (x :: own.map Prod.snd))) := by
  induction own generalizing a x n p fuel with
  | nil =>
    obtain rfl : p = none := segment
    rw [List.map_nil, decide_eq_true (p := InOrder comp [x]) (List.isChain_singleton x)]
    cases fuel <;> rfl
  | cons c own ih =>
    obtain ⟨rfl, n', there, rest⟩ := segment
    cases fuel with
    | zero => exact absurd enough (by simp)
    | succ fuel =>
      have cons : InOrder comp (x :: (c :: own).map Prod.snd) ↔ comp x c.2 ≤ 0 ∧ InOrder comp (c.2 :: own.map Prod.snd) := by
        rw [InOrder, List.map_cons, List.isChain_cons_cons]
        rfl
      rw [orderFrom, Heap.read_some here]
      change (h.read (some c.1) >>= _) = _
      rw [Heap.read_some there]
      change (assert (decide (comp x c.2 ≤ 0)) >>= fun _ => orderFrom comp h fuel (some c.1) n') = _
      rw [ih there rest (by simpa using enough)]
      by_cases before : comp x c.2 ≤ 0
      · rw [decide_eq_true before]
        by_cases later : InOrder comp (c.2 :: own.map Prod.snd)
        · rw [decide_eq_true later, decide_eq_true (cons.2 ⟨before, later⟩)]
          rfl
        · rw [decide_eq_false later, decide_eq_false fun both => later (cons.1 both).2]
          rfl
      · rw [decide_eq_false before, decide_eq_false fun both => before (cons.1 both).1]
        rfl

omit [DecidableEq ι] [DecidableEq α] in
/-- **A sorted list passes its check if it is in order.** -/
theorem sortedCheck_eq (holds : l.Holds h own) (enough : own.length ≤ fuel) :
    l.sortedCheck comp fuel h = assert (decide (InOrder comp (own.map Prod.snd))) := by
  rw [sortedCheck, sanityCheck_ok holds enough]
  change (if l.first = l.last then _ else _) = _
  cases own with
  | nil =>
    have first : l.first = none := holds.segment
    have last : l.last = none := holds.last
    rw [first, last, if_pos rfl]
    rfl
  | cons c own =>
    obtain ⟨first, n, here, rest⟩ := holds.segment
    cases own with
    | nil =>
      have last : l.last = some c.1 := holds.last
      rw [first, last, if_pos rfl, List.map_singleton, decide_eq_true (p := InOrder comp [c.2]) (List.isChain_singleton c.2)]
      rfl
    | cons d own =>
      have differ : l.first ≠ l.last := by
        rw [first, holds.last, List.getLast?_cons_cons]
        intro same
        obtain ⟨e, mem, same⟩ := Option.map_eq_some_iff.1 same.symm
        have nodup := holds.nodup
        rw [List.map_cons, List.nodup_cons] at nodup
        exact nodup.1 (List.mem_map.2 ⟨e, List.mem_of_getLast? mem, same⟩)
      rw [if_neg differ, first, Heap.read_some here]
      exact orderFrom_eq here rest ((Nat.le_succ _).trans enough)

/-- The items of the lists. -/
def itemsOf (cells : ι → List (ℕ × α)) (i : ι) : List α := (cells i).map Prod.snd

omit [DecidableEq α] in
theorem itemsOf_update (cells : ι → List (ℕ × α)) (i : ι) (new : List (ℕ × α)) :
    itemsOf (Function.update cells i new) = Function.update (itemsOf cells) i (new.map Prod.snd) := by
  funext j
  rw [itemsOf]
  rcases eq_or_ne j i with rfl | other
  · rw [Function.update_self, Function.update_self]
  · rw [Function.update_of_ne other, Function.update_of_ne other]
    rfl

/-- The call answers as on sequences. -/
def Lists.Answers (compare : ι → Option (α → α → ℤ)) (fuel : ℕ) (s : Lists ι α) (cells : ι → List (ℕ × α)) (c : ListCall ι α) : Prop :=
  match c.on compare (itemsOf cells) with
  | none => s.call compare fuel c = .error .assertion
  | some (a, xs) => ∃ s' cells', s.call compare fuel c = .ok (a, s') ∧ s'.Hold cells' ∧ itemsOf cells' = xs

theorem appendTo_present (compare : Option (α → α → ℤ)) (holds : l.Holds h own) (mem : item ∈ own.map Prod.snd)
    (enough : own.length ≤ fuel) : l.appendTo compare fuel h item = .error .assertion := by
  cases compare with
  | none => exact append_present holds mem enough
  | some comp => exact insert_present holds mem enough

theorem prependTo_present (compare : Option (α → α → ℤ)) (holds : l.Holds h own) (mem : item ∈ own.map Prod.snd)
    (enough : own.length ≤ fuel) : l.prependTo compare fuel h item = .error .assertion := by
  cases compare with
  | none => exact prepend_present holds mem enough
  | some comp => exact insert_present holds mem enough

/-- The list with a new item in its place. -/
def NewItem (h h' : Heap α) (l' : LinkedList) (own : List (ℕ × α)) (items : List α) : Prop :=
  ∃ new, Added h h' l' own new ∧ new.map Prod.snd = items

theorem appendTo_ok (compare : Option (α → α → ℤ)) (holds : l.Holds h own) (new : item ∉ own.map Prod.snd)
    (enough : own.length < fuel) : ∃ h' l', l.appendTo compare fuel h item = .ok (h', l') ∧
      NewItem h h' l' own (appendItems compare (own.map Prod.snd) item) := by
  cases compare with
  | none =>
    obtain ⟨h', l', done, added⟩ := append_ok holds new enough
    exact ⟨h', l', done, _, added, List.map_append ..⟩
  | some comp =>
    have inserted : ∃ h' l', l.insert comp fuel h item = .ok (h', l') ∧ _ := insert_added holds new enough
    obtain ⟨h', l', done, added⟩ := inserted
    exact ⟨h', l', done, _, added, map_insert ..⟩

theorem prependTo_ok (compare : Option (α → α → ℤ)) (holds : l.Holds h own) (new : item ∉ own.map Prod.snd)
    (enough : own.length < fuel) : ∃ h' l', l.prependTo compare fuel h item = .ok (h', l') ∧
      NewItem h h' l' own (prependItems compare (own.map Prod.snd) item) := by
  cases compare with
  | none =>
    obtain ⟨h', l', done, added⟩ := prepend_ok holds new enough
    exact ⟨h', l', done, _, added, List.map_cons ..⟩
  | some comp =>
    have inserted : ∃ h' l', l.insert comp fuel h item = .ok (h', l') ∧ _ := insert_added holds new enough
    obtain ⟨h', l', done, added⟩ := inserted
    exact ⟨h', l', done, _, added, map_insert ..⟩

omit [DecidableEq α] in
theorem appendItems_perm (compare : Option (α → α → ℤ)) (xs : List α) (item : α) : (appendItems compare xs item).Perm (item :: xs) := by
  cases compare with
  | none => exact List.perm_append_comm
  | some comp => exact List.perm_orderedInsert _ _ _

omit [DecidableEq α] in
theorem prependItems_perm (compare : Option (α → α → ℤ)) (xs : List α) (item : α) : (prependItems compare xs item).Perm (item :: xs) := by
  cases compare with
  | none => exact .refl _
  | some comp => exact List.perm_orderedInsert _ _ _

omit [DecidableEq α] in
theorem check_eq (compare : Option (α → α → ℤ)) (holds : l.Holds h own) (enough : own.length ≤ fuel) :
    l.check compare fuel h = assert (decide (∀ c ∈ compare, InOrder c (own.map Prod.snd))) := by
  cases compare with
  | none =>
    rw [decide_eq_true fun c mem => by cases mem]
    exact sanityCheck_ok holds enough
  | some comp =>
    have single : (∀ c ∈ some comp, InOrder c (own.map Prod.snd)) ↔ InOrder comp (own.map Prod.snd) := by simp
    rw [decide_eq_decide.2 single]
    exact sortedCheck_eq holds enough

namespace Lists.Hold

omit [DecidableEq α] in
/-- An operation on one list. -/
theorem change (hold : s.Hold cells) {h' : Heap α} {l' : LinkedList} {new : List (ℕ × α)} {items : List α} (holds : l'.Holds h' new)
    (touches : Touches s.heap h' (cells i) new) (eq : new.map Prod.snd = items) (distinct : items.Nodup) :
    ∃ cells', (s.set i (h', l')).Hold cells' ∧ itemsOf cells' = Function.update (itemsOf cells) i items :=
  ⟨_, hold.update holds touches (eq ▸ distinct), by rw [itemsOf_update, eq]⟩

omit [DecidableEq α] in
theorem place (hold : s.Hold cells) {h' : Heap α} {l' : LinkedList} {items : List α} (placed : NewItem s.heap h' l' (cells i) items)
    (new : item ∉ itemsOf cells i) (perm : items.Perm (item :: itemsOf cells i)) :
    ∃ cells', (s.set i (h', l')).Hold cells' ∧ itemsOf cells' = Function.update (itemsOf cells) i items := by
  obtain ⟨_, added, eq⟩ := placed
  exact hold.change added.holds added.touches eq (perm.nodup_iff.2 (List.nodup_cons.2 ⟨new, hold.distinct i⟩))

theorem append (hold : s.Hold cells) (enough : s.heap.brk < fuel) (i : ι) (item : α) :
    s.Answers compare fuel cells (.append i item) := by
  have holds := hold.holds i
  have short := hold.enough i enough
  rw [Lists.Answers, ListCall.on, Lists.call]
  by_cases mem : item ∈ itemsOf cells i
  · rw [if_pos mem, appendTo_present _ holds mem short.le]
    rfl
  · rw [if_neg mem]
    obtain ⟨h', l', done, placed⟩ := appendTo_ok (compare i) holds mem short
    obtain ⟨cells', hold', items⟩ := hold.place placed mem (appendItems_perm ..)
    exact ⟨_, cells', by rw [done]; rfl, hold', items⟩

theorem prepend (hold : s.Hold cells) (enough : s.heap.brk < fuel) (i : ι) (item : α) :
    s.Answers compare fuel cells (.prepend i item) := by
  have holds := hold.holds i
  have short := hold.enough i enough
  rw [Lists.Answers, ListCall.on, Lists.call]
  by_cases mem : item ∈ itemsOf cells i
  · rw [if_pos mem, prependTo_present _ holds mem short.le]
    rfl
  · rw [if_neg mem]
    obtain ⟨h', l', done, placed⟩ := prependTo_ok (compare i) holds mem short
    obtain ⟨cells', hold', items⟩ := hold.place placed mem (prependItems_perm ..)
    exact ⟨_, cells', by rw [done]; rfl, hold', items⟩

theorem removeFront (hold : s.Hold cells) (i : ι) : s.Answers compare fuel cells (.removeFront i) := by
  have holds := hold.holds i
  have distinct := hold.distinct i
  rw [Lists.Answers, ListCall.on, itemsOf, Lists.call]
  cases own : cells i with
  | nil =>
    rw [own] at holds
    rw [removeFront_empty holds]
    rfl
  | cons c rest =>
    rw [own] at holds distinct
    obtain ⟨h', l', done, -, dropped⟩ := removeFront_touches holds
    obtain ⟨cells', hold', items⟩ := hold.change (i := i) dropped.holds (own ▸ dropped.touches) rfl (List.nodup_cons.1 distinct).2
    exact ⟨_, cells', by rw [done]; rfl, hold', items⟩

theorem remove (hold : s.Hold cells) (enough : s.heap.brk < fuel) (i : ι) (item : α) :
    s.Answers compare fuel cells (.remove i item) := by
  have holds := hold.holds i
  have short := (hold.enough i enough).le
  rw [Lists.Answers, ListCall.on, Lists.call]
  by_cases mem : item ∈ itemsOf cells i
  · rw [if_pos mem]
    obtain ⟨h', l', done, -, dropped⟩ := remove_ok holds (hold.distinct i) mem short
    obtain ⟨cells', hold', items⟩ := hold.change dropped.holds dropped.touches (map_without item (cells i)) ((hold.distinct i).erase item)
    exact ⟨_, cells', by rw [done]; rfl, hold', items⟩
  · rw [if_neg mem, remove_missing holds mem short]
    rfl

theorem sanityCheck (hold : s.Hold cells) (enough : s.heap.brk < fuel) (i : ι) : s.Answers compare fuel cells (.sanityCheck i) := by
  have check : (s.list i).check (compare i) fuel s.heap = assert (decide (∀ c ∈ compare i, InOrder c (itemsOf cells i))) :=
    check_eq _ (hold.holds i) (hold.enough i enough).le
  rw [Lists.Answers, ListCall.on, Lists.call, check]
  by_cases sorted : ∀ c ∈ compare i, InOrder c (itemsOf cells i)
  · rw [if_pos sorted, decide_eq_true sorted]
    exact ⟨s, cells, rfl, hold, rfl⟩
  · rw [if_neg sorted, decide_eq_false sorted]
    rfl

/-- **Every call** answers as on sequences. -/
theorem call (hold : s.Hold cells) (enough : s.heap.brk < fuel) (c : ListCall ι α) : s.Answers compare fuel cells c := by
  cases c with
  | append i item => exact hold.append enough i item
  | prepend i item => exact hold.prepend enough i item
  | removeFront i => exact hold.removeFront i
  | remove i item => exact hold.remove enough i item
  | isInList i item =>
    refine ⟨s, cells, ?_, hold, rfl⟩
    rw [Lists.call, isInList_ok (hold.holds i).segment (hold.enough i enough).le]
    rfl
  | numInList i =>
    refine ⟨s, cells, ?_, hold, rfl⟩
    rw [Lists.call, (hold.holds i).numInList, itemsOf, List.length_map]
    rfl
  | apply i =>
    refine ⟨s, cells, ?_, hold, rfl⟩
    rw [Lists.call, LinkedList.apply, applyFrom_ok (hold.holds i).segment (hold.enough i enough).le]
    rfl
  | sanityCheck i => exact hold.sanityCheck enough i

end Lists.Hold

/-! ## Sorted lists -/

/-- What a `SortedList` is promised of its `compare`. -/
structure Comparator (compare : α → α → ℤ) : Prop where
  total : ∀ x y, ¬ compare x y < 0 → compare y x ≤ 0
  trans : ∀ x y z, compare x y ≤ 0 → compare y z ≤ 0 → compare x z ≤ 0

/-- Every item is in order with all that follow. -/
def Ascending (comp : α → α → ℤ) (xs : List α) : Prop := xs.Pairwise fun a b => comp a b ≤ 0

omit [DecidableEq α] in
theorem Comparator.insert (lawful : Comparator comp) {xs : List α} (sorted : Ascending comp xs) (item : α) :
    Ascending comp (xs.orderedInsert (fun a b => comp a b < 0) item) := by
  induction xs with
  | nil => exact List.pairwise_singleton _ item
  | cons x xs ih =>
    obtain ⟨first, rest⟩ := List.pairwise_cons.1 sorted
    rw [List.orderedInsert_cons]
    split_ifs with before
    · refine List.pairwise_cons.2 ⟨fun y mem => ?_, sorted⟩
      obtain rfl | later := List.mem_cons.1 mem
      · exact before.le
      · exact lawful.trans item x y before.le (first y later)
    · refine List.pairwise_cons.2 ⟨fun y mem => ?_, ih rest⟩
      obtain rfl | later := (List.mem_orderedInsert _).1 mem
      · exact lawful.total y x before
      · exact first y later

/-- One call on sequences. -/
def ListCall.Step (compare : ι → Option (α → α → ℤ)) (xs : ι → List α) (c : ListCall ι α) (a : ListAnswer α) (xs' : ι → List α) : Prop :=
  c.on compare xs = some (a, xs')

/-- No call takes a sorted list out of order. -/
theorem ListCall.Step.sorted {c : ListCall ι α} {a : ListAnswer α} (step : c.Step compare xs a xs') (of : compare i = some comp)
    (lawful : Comparator comp) (sorted : Ascending comp (xs i)) : Ascending comp (xs' i) := by
  have updated (j : ι) (items : List α) (kept : j = i → Ascending comp items) : Ascending comp (Function.update xs j items i) := by
    rcases eq_or_ne i j with rfl | other
    · rw [Function.update_self]
      exact kept rfl
    · rw [Function.update_of_ne other]
      exact sorted
  cases c with
  | append j item =>
    rw [Step, on] at step
    split_ifs at step
    cases step
    refine updated j _ fun same => ?_
    rw [same, of]
    exact lawful.insert sorted item
  | prepend j item =>
    rw [Step, on] at step
    split_ifs at step
    cases step
    refine updated j _ fun same => ?_
    rw [same, of]
    exact lawful.insert sorted item
  | removeFront j =>
    rw [Step, on] at step
    cases own : xs j with
    | nil =>
      rw [own] at step
      cases step
    | cons x rest =>
      rw [own] at step
      cases step
      refine updated j _ fun same => ?_
      rw [← same, own] at sorted
      exact (List.pairwise_cons.1 sorted).2
  | remove j item =>
    rw [Step, on] at step
    split_ifs at step
    cases step
    refine updated j _ fun same => ?_
    rw [same]
    exact sorted.sublist List.erase_sublist
  | sanityCheck j =>
    rw [Step, on] at step
    split_ifs at step
    cases step
    exact sorted
  | isInList j item | numInList j | apply j =>
    cases step
    exact sorted

/-- A call that returns, in a number of rounds that is no bound for it. -/
def Lists.Calls (compare : ι → Option (α → α → ℤ)) (s : Lists ι α) (c : ListCall ι α) (a : ListAnswer α) (s' : Lists ι α) : Prop :=
  ∃ fuel, s.heap.brk < fuel ∧ s.call compare fuel c = .ok (a, s')

/-- **Lists are sequences.** In every run of calls on any lists that share a heap the calls answer as the
sequences do; sorted lists are in order; the next call returns what the sequences answer, or fails an
`ASSERT` where they have no answer. -/
theorem lists_refine {log : List (ListCall ι α × ListAnswer α)}
    (run : Trace (Lists.Calls compare) (fun _ _ => True) (Lists.empty ι α) log s) :
    ∃ xs, Trace (ListCall.Step compare) (fun _ _ => True) (fun _ => []) log xs ∧
      (∀ i comp, compare i = some comp → Comparator comp → InOrder comp (xs i)) ∧
      ∀ (c : ListCall ι α) (fuel : ℕ), s.heap.brk < fuel →
        match c.on compare xs with
        | none => s.call compare fuel c = .error .assertion
        | some (a, _) => ∃ s', s.call compare fuel c = .ok (a, s') := by
  have forward : ∀ (s : Lists ι α) c a s' xs, (∃ cells, s.Hold cells ∧ itemsOf cells = xs) → True → Lists.Calls compare s c a s' →
      True ∧ ∃ xs', ListCall.Step compare xs (id c) a xs' ∧ ∃ cells, s'.Hold cells ∧ itemsOf cells = xs' := by
    rintro s c a s' xs ⟨cells, hold, rfl⟩ - ⟨fuel, enough, call⟩
    have answers : s.Answers compare fuel cells c := hold.call enough c
    rw [Lists.Answers] at answers
    cases on : c.on compare (itemsOf cells) with
    | none =>
      rw [on] at answers
      cases call.symm.trans answers
    | some r =>
      rw [on] at answers
      obtain ⟨s'', cells', call', hold', items⟩ := answers
      cases Except.ok.inj (call.symm.trans call')
      exact ⟨trivial, r.2, on, cells', hold', items⟩
  obtain ⟨xs, run', cells, hold, rfl⟩ := run.refine (fun _ _ => True) _ id ⟨_, .empty, rfl⟩ forward
  rw [show Prod.map (id : ListCall ι α → _) (id : ListAnswer α → _) = id from Prod.map_id, List.map_id] at run'
  refine ⟨_, run', fun i comp of lawful => ?_, fun c fuel enough => ?_⟩
  · have start : Ascending comp ([] : List α) := List.Pairwise.nil
    have sorted : Ascending comp (itemsOf cells i) := run'.invariant (fun xs : ι → List α => Ascending comp (xs i)) start
      fun _ _ _ _ now _ step => step.sorted of lawful now
    exact List.Pairwise.isChain sorted
  · have answers : s.Answers compare fuel cells c := hold.call enough c
    rw [Lists.Answers] at answers
    cases on : c.on compare (itemsOf cells) with
    | none =>
      rw [on] at answers
      exact answers
    | some r =>
      rw [on] at answers
      obtain ⟨s', -, call, -⟩ := answers
      exact ⟨s', call⟩

/-- Numbers in ascending order in one of two lists. -/
def oneSorted (sorted : Bool) : Option (ℕ → ℕ → ℤ) := if sorted then some fun x y => (x : ℤ) - y else none

theorem lists_refine_sorted : ∃ s xs,
    Trace (Lists.Calls oneSorted) (fun _ _ => True) (Lists.empty Bool ℕ)
      [(.append true 3, .done), (.append true 1, .done), (.removeFront true, .item 1)] s ∧
    Trace (ListCall.Step oneSorted) (fun _ _ => True) (fun _ => [])
      [(.append true 3, .done), (.append true 1, .done), (.removeFront true, .item 1)] xs ∧
    InOrder (fun x y : ℕ => (x : ℤ) - y) (xs true) := by
  have calls : ∃ s, Trace (Lists.Calls oneSorted) (fun _ _ => True) (Lists.empty Bool ℕ)
      [(.append true 3, .done), (.append true 1, .done), (.removeFront true, .item 1)] s :=
    ⟨_, ((Trace.nil.snoc trivial ⟨1, Nat.lt_succ_self 0, rfl⟩).snoc trivial ⟨2, Nat.lt_succ_self 1, rfl⟩).snoc trivial
      ⟨3, Nat.lt_succ_self 2, rfl⟩⟩
  obtain ⟨s, run⟩ := calls
  have lawful : Comparator fun x y : ℕ => (x : ℤ) - y := ⟨fun x y later => by omega, fun x y z one two => by omega⟩
  obtain ⟨xs, run', sorted, -⟩ := lists_refine run
  exact ⟨_, xs, run, run', sorted true _ rfl lawful⟩

end Nachos.Mp3
