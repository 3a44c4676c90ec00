import Nachos.Mp3.LinkedList
import Nachos.Mp3.Passes

/-!
# Iterators over the ready queues

`ListIterator` and `Scheduler::UpdatePriority` on queues whose elements are cells of a heap.
`Remove` deletes the element the iterator of the loop stands on, and then the iterator is asked
for the item again. Where that does not happen the call is the one on the kernel's lists.
-/

namespace Nachos.Mp3
open Cells Transition

/-- What `UpdatePriority` works on. `agings` are the threads that `aging` has been called on. -/
structure Queues where
  threads : ThreadPtr → Thread
  totalTicks : ℕ
  heap : Heap ThreadPtr
  readyList : Level → LinkedList
  agings : List ThreadPtr

namespace Queues

def setList (s : Queues) (ℓ : Level) (r : Heap ThreadPtr × LinkedList) : Queues :=
  { s with heap := r.1, readyList := Function.update s.readyList ℓ r.2 }

/-- `Scheduler::ReadyToRun`. -/
def readyToRun (fuel : ℕ) (s : Queues) (t : ThreadPtr) : Except Fault Queues := do
  let s := { s with threads := Function.update s.threads t { s.threads t with status := .ready, waitStartTime := s.totalTicks } }
  if (s.threads t).priority ≥ 100 then
    pure (s.setList .L1 (← (s.readyList .L1).insert (fun a b => cmpBurstTime (s.threads a) (s.threads b)) fuel s.heap t))
  else if (s.threads t).priority ≥ 50 then
    pure (s.setList .L2 (← (s.readyList .L2).insert (fun a b => cmpPriority (s.threads a) (s.threads b)) fuel s.heap t))
  else pure (s.setList .L3 (← (s.readyList .L3).append fuel s.heap t))

/-- `ListIterator::Item`. -/
def item (s : Queues) (current : Ptr) : Except Fault ThreadPtr := do
  assert current.isSome
  let c ← s.heap.read current
  pure c.item

/-- `ListIterator::Next`. -/
def next (s : Queues) (current : Ptr) : Except Fault Ptr := do
  let c ← s.heap.read current
  pure c.next

/-- Calls `aging` on a thread with the time it has waited. -/
def aging (s : Queues) (t : ThreadPtr) : Queues × Bool :=
  let (th, upgrade) := (s.threads t).aging s.totalTicks ((s.totalTicks : Int) - (s.threads t).waitStartTime)
  ({ s with threads := Function.update s.threads t th, agings := s.agings ++ [t] }, upgrade)

/-- `Remove` of the item under the iterator and `ReadyToRun` of the item under the iterator. -/
def requeue (fuel : ℕ) (ℓ : Level) (current : Ptr) (s : Queues) : Except Fault Queues := do
  let t ← s.item current
  let s := s.setList ℓ (← (s.readyList ℓ).remove fuel s.heap t)
  let t ← s.item current
  s.readyToRun fuel t

/-- The bodies of the three loops. -/
def visit (fuel : ℕ) : Level → Ptr → Queues → Except Fault Queues
  | .L1, current, s => do
    let t ← s.item current
    pure (s.aging t).1
  | .L2, current, s => do
    let t ← s.item current
    let (s, upgrade) := s.aging t
    if upgrade then
      let t ← s.item current
      if (s.threads t).ID > 0 then s.requeue fuel .L2 current else pure s
    else s.requeue fuel .L2 current
  | .L3, current, s => do
    let t ← s.item current
    let (s, upgrade) := s.aging t
    if upgrade then
      let t ← s.item current
      if (s.threads t).ID > 0 then s.requeue fuel .L3 current else pure s
    else pure s

/-- The loop over one queue. -/
def loop (fuel : ℕ) (ℓ : Level) : ℕ → Ptr → Queues → Except Fault Queues
  | _, none, s => pure s
  | 0, some _, _ => throw .diverges
  | rounds + 1, some a, s => do
    let s ← visit fuel ℓ (some a) s
    let current ← s.next (some a)
    loop fuel ℓ rounds current s

def pass (fuel : ℕ) (ℓ : Level) (s : Queues) : Except Fault Queues :=
  if (s.readyList ℓ).isEmpty then pure s else loop fuel ℓ fuel (s.readyList ℓ).first s

/-- `Scheduler::UpdatePriority`. -/
def updatePriority (fuel : ℕ) (s : Queues) : Except Fault Queues := do
  let s ← s.pass fuel .L1
  let s ← s.pass fuel .L2
  s.pass fuel .L3

/-! ## The loops -/

variable {s s' : Queues} {ℓ : Level} {t u : ThreadPtr} {a fuel rounds : ℕ} {p : Ptr} {cells rest : List (ℕ × ThreadPtr)}

/-- `aging` returns TRUE: the thread has waited long enough and passes 50 or 100. -/
def Due (s : Queues) (t : ThreadPtr) : Prop :=
  1500 ≤ (s.totalTicks : Int) - (s.threads t).waitStartTime ∧
    (90 ≤ (s.threads t).priority ∧ (s.threads t).priority < 100 ∨ 40 ≤ (s.threads t).priority ∧ (s.threads t).priority < 50)

/-- The loop takes the thread out of the queue. -/
def Leaves (s : Queues) : Level → ThreadPtr → Prop
  | .L1, _ => False
  | .L2, t => ¬ (s.Due t ∧ (s.threads t).ID = 0)
  | .L3, t => s.Due t ∧ (s.threads t).ID ≠ 0

/-- The threads of a list are aged in turn. -/
def agedAll (s : Queues) (ts : List ThreadPtr) : Queues := ts.foldl (fun s t => (s.aging t).1) s

theorem aging_due : (s.aging t).2 = true ↔ s.Due t := by
  change ((s.threads t).aging s.totalTicks _).2 = true ↔ _
  rw [Thread.aging_upgrade, Thread.aging_priority, Due]
  split
  · omega
  · unfold Thread.raised
    split
    · omega
    · omega

theorem aging_ID : ((s.aging t).1.threads t).ID = (s.threads t).ID := by
  change (Function.update s.threads t _ t).ID = _
  rw [Function.update_self]
  exact Thread.aging_ID

/-- Aging a thread leaves the others alone. -/
theorem leaves_aging (ne : u ≠ t) : (s.aging t).1.Leaves ℓ u ↔ s.Leaves ℓ u := by
  have same : (s.aging t).1.threads u = s.threads u := Function.update_of_ne ne ..
  have due : (s.aging t).1.Due u ↔ s.Due u := by
    unfold Due
    rw [same]
    rfl
  cases ℓ with
  | L1 => rfl
  | L2 => exact not_congr (and_congr due (by rw [same]))
  | L3 => exact and_congr due (by rw [same])

theorem item_some {n : Ptr} (here : s.heap.cells a = some ⟨t, n⟩) : s.item (some a) = .ok t := by
  unfold item
  rw [Heap.read_some here]
  rfl

theorem visit_stays {n : Ptr} (here : s.heap.cells a = some ⟨t, n⟩) (stays : ¬ s.Leaves ℓ t) :
    visit fuel ℓ (some a) s = .ok (s.aging t).1 := by
  have again : (s.aging t).1.item (some a) = .ok t := item_some (n := n) here
  have id : ((s.aging t).1.threads t).ID = (s.threads t).ID := aging_ID
  unfold visit
  cases ℓ with
  | L1 =>
    dsimp only
    rw [item_some here]
    rfl
  | L2 =>
    obtain ⟨due, main⟩ := not_not.1 stays
    dsimp only
    rw [item_some here]
    change (if (s.aging t).2 = true then _ else _) = _
    rw [if_pos (aging_due.2 due), again]
    change (if ((s.aging t).1.threads t).ID > 0 then _ else _) = _
    rw [id, main]
    rfl
  | L3 =>
    dsimp only
    rw [item_some here]
    change (if (s.aging t).2 = true then _ else _) = _
    split
    · rename_i due
      have main : (s.threads t).ID = 0 := by
        by_contra other
        exact stays ⟨aging_due.1 due, other⟩
      rw [again]
      change (if ((s.aging t).1.threads t).ID > 0 then _ else _) = _
      rw [id, main]
      rfl
    · rfl

/-- Asked for its item, the iterator reads a deleted element. -/
theorem requeue_fails (segment : Segment s.heap (s.readyList ℓ).first cells none) (nodup : (cells.map Prod.snd).Nodup)
    (mem : (a, t) ∈ cells) : s.requeue fuel ℓ (some a) ≠ .ok s' := by
  intro done
  obtain ⟨n, here⟩ := segment.item mem
  obtain ⟨t', first, done⟩ := bind_ok done
  rw [item_some here] at first
  cases first
  obtain ⟨⟨h, l⟩, removed, done⟩ := bind_ok done
  obtain ⟨t', again, -⟩ := bind_ok done
  have gone : h.cells a = none := LinkedList.remove_deletes segment nodup mem removed
  unfold item at again
  change (h.read (some a) >>= _) = _ at again
  rw [Heap.read_deleted gone] at again
  cases again

theorem visit_leaves (segment : Segment s.heap (s.readyList ℓ).first cells none) (nodup : (cells.map Prod.snd).Nodup)
    (mem : (a, t) ∈ cells) (leaves : s.Leaves ℓ t) : visit fuel ℓ (some a) s ≠ .ok s' := by
  obtain ⟨n, here⟩ := segment.item mem
  have again : (s.aging t).1.item (some a) = .ok t := item_some (n := n) here
  have id : ((s.aging t).1.threads t).ID = (s.threads t).ID := aging_ID
  have fails (s' : Queues) : (s.aging t).1.requeue fuel ℓ (some a) ≠ .ok s' := requeue_fails (s := (s.aging t).1) segment nodup mem
  unfold visit
  cases ℓ with
  | L1 => exact leaves.elim
  | L2 =>
    dsimp only
    rw [item_some here]
    change (if (s.aging t).2 = true then _ else _) ≠ _
    split
    · rename_i due
      have other : (s.threads t).ID ≠ 0 := fun main => leaves ⟨aging_due.1 due, main⟩
      rw [again]
      change (if ((s.aging t).1.threads t).ID > 0 then _ else _) ≠ _
      rw [id, if_pos (Nat.pos_of_ne_zero other)]
      exact fails s'
    · exact fails s'
  | L3 =>
    dsimp only
    rw [item_some here]
    change (if (s.aging t).2 = true then _ else _) ≠ _
    rw [if_pos (aging_due.2 leaves.1), again]
    change (if ((s.aging t).1.threads t).ID > 0 then _ else _) ≠ _
    rw [id, if_pos (Nat.pos_of_ne_zero leaves.2)]
    exact fails s'

theorem agedAll_cons (ts : List ThreadPtr) : s.agedAll (t :: ts) = (s.aging t).1.agedAll ts := rfl

/-- A queue that no thread leaves is walked once. -/
theorem loop_eq (segment : Segment s.heap p rest none) (stay : ∀ c ∈ rest, ¬ s.Leaves ℓ c.2) (nodup : (rest.map Prod.snd).Nodup)
    (enough : rest.length ≤ rounds) : loop fuel ℓ rounds p s = .ok (s.agedAll (rest.map Prod.snd)) := by
  induction rest generalizing s p rounds with
  | nil =>
    cases segment
    cases rounds with
    | zero => rfl
    | succ rounds => rfl
  | cons c rest ih =>
    obtain ⟨a, t⟩ := c
    obtain ⟨rfl, n, here, more⟩ := segment
    rw [List.map_cons, List.nodup_cons] at nodup
    obtain ⟨now, later⟩ := List.forall_mem_cons.1 stay
    rw [List.length_cons] at enough
    obtain ⟨rounds, rfl⟩ : ∃ r, rounds = r + 1 := ⟨rounds - 1, by omega⟩
    have behind : (s.aging t).1.next (some a) = .ok n := by
      unfold next
      change ((s.heap.read (some a)) >>= _) = _
      rw [Heap.read_some here]
      rfl
    have others : ∀ c ∈ rest, ¬ (s.aging t).1.Leaves ℓ c.2 := by
      intro c mem leaves
      have ne : c.2 ≠ t := fun same => nodup.1 (List.mem_map.2 ⟨c, mem, same⟩)
      exact later c mem ((leaves_aging ne).1 leaves)
    rw [loop, visit_stays here now]
    change ((s.aging t).1.next (some a) >>= fun current => loop fuel ℓ rounds current (s.aging t).1) = _
    rw [behind]
    exact ih (s := (s.aging t).1) more others nodup.2 (by omega)

/-- **A loop that ends well** has taken no thread out of its queue. -/
theorem loop_ok (whole : Segment s.heap (s.readyList ℓ).first cells none) (distinct : (cells.map Prod.snd).Nodup)
    (segment : Segment s.heap p rest none) (among : rest ⊆ cells) (nodup : (rest.map Prod.snd).Nodup)
    (done : loop fuel ℓ rounds p s = .ok s') : (∀ c ∈ rest, ¬ s.Leaves ℓ c.2) ∧ rest.length ≤ rounds := by
  induction rest generalizing s p rounds with
  | nil => exact ⟨List.forall_mem_nil _, Nat.zero_le _⟩
  | cons c rest ih =>
    obtain ⟨a, t⟩ := c
    obtain ⟨rfl, n, here, more⟩ := segment
    rw [List.map_cons, List.nodup_cons] at nodup
    obtain ⟨mem, later⟩ := List.cons_subset.1 among
    cases rounds with
    | zero => cases done
    | succ rounds =>
      obtain ⟨s₁, visited, done⟩ := bind_ok done
      obtain ⟨current, behind, done⟩ := bind_ok done
      have stays : ¬ s.Leaves ℓ t := fun leaves => visit_leaves whole distinct mem leaves visited
      rw [visit_stays here stays] at visited
      cases visited
      unfold next at behind
      change ((s.heap.read (some a)) >>= _) = _ at behind
      rw [Heap.read_some here] at behind
      cases behind
      obtain ⟨others, enough⟩ := ih (s := (s.aging t).1) whole more later nodup.2 done
      refine ⟨List.forall_mem_cons.2 ⟨stays, fun c mem leaves => ?_⟩, by rw [List.length_cons]; omega⟩
      have ne : c.2 ≠ t := fun same => nodup.1 (List.mem_map.2 ⟨c, mem, same⟩)
      exact others c mem ((leaves_aging ne).2 leaves)

end Queues

/-! ## The whole call -/

/-- The three queues are lists of the given elements, and no thread stands in two places. -/
structure Queues.Linked (s : Queues) (cells : Level → List (ℕ × ThreadPtr)) : Prop where
  segment : ∀ ℓ, Segment s.heap (s.readyList ℓ).first (cells ℓ) none
  numInList : ∀ ℓ, (s.readyList ℓ).numInList = (cells ℓ).length
  nodup : ((cells .L1 ++ cells .L2 ++ cells .L3).map Prod.snd).Nodup

namespace Queues

variable {s s' : Queues} {ℓ : Level} {t u : ThreadPtr} {ts : List ThreadPtr} {fuel : ℕ} {cells : Level → List (ℕ × ThreadPtr)}

/-- Aging moves no thread. -/
theorem agedAll_keep (s : Queues) (ts : List ThreadPtr) : (s.agedAll ts).heap = s.heap ∧ (s.agedAll ts).readyList = s.readyList ∧
    (s.agedAll ts).agings = s.agings ++ ts := by
  induction ts generalizing s with
  | nil => exact ⟨rfl, rfl, (List.append_nil _).symm⟩
  | cons t ts ih =>
    obtain ⟨heap, lists, log⟩ := ih (s.aging t).1
    refine ⟨heap, lists, log.trans ?_⟩
    change (s.agings ++ [t]) ++ ts = _
    rw [List.append_assoc, List.singleton_append]

theorem leaves_agedAll (other : u ∉ ts) : (s.agedAll ts).Leaves ℓ u ↔ s.Leaves ℓ u := by
  induction ts generalizing s with
  | nil => rfl
  | cons t ts ih =>
    rw [List.mem_cons, not_or] at other
    rw [agedAll_cons, ih other.2, leaves_aging other.1]

theorem Linked.agedAll (linked : s.Linked cells) (ts : List ThreadPtr) : (s.agedAll ts).Linked cells := by
  obtain ⟨heap, lists, -⟩ := s.agedAll_keep ts
  constructor
  · intro ℓ
    rw [heap, lists]
    exact linked.segment ℓ
  · intro ℓ
    rw [lists]
    exact linked.numInList ℓ
  · exact linked.nodup

theorem Linked.nodup_level (linked : s.Linked cells) (ℓ : Level) : ((cells ℓ).map Prod.snd).Nodup := by
  have all := linked.nodup
  rw [List.map_append, List.map_append, List.nodup_append', List.nodup_append'] at all
  obtain ⟨⟨one, two, -⟩, three, -⟩ := all
  cases ℓ with
  | L1 => exact one
  | L2 => exact two
  | L3 => exact three

/-- A queue that no thread leaves is aged. -/
theorem pass_eq (linked : s.Linked cells) (stay : ∀ c ∈ cells ℓ, ¬ s.Leaves ℓ c.2) (enough : (cells ℓ).length ≤ fuel) :
    s.pass fuel ℓ = .ok (s.agedAll ((cells ℓ).map Prod.snd)) := by
  unfold pass LinkedList.isEmpty
  rw [linked.numInList]
  split
  · rename_i empty
    have none : cells ℓ = [] := List.eq_nil_of_length_eq_zero (by simpa using empty)
    rw [none]
    rfl
  · exact loop_eq (linked.segment ℓ) stay (linked.nodup_level ℓ) enough

theorem pass_ok (linked : s.Linked cells) (done : s.pass fuel ℓ = .ok s') :
    (∀ c ∈ cells ℓ, ¬ s.Leaves ℓ c.2) ∧ s' = s.agedAll ((cells ℓ).map Prod.snd) := by
  have stay : (∀ c ∈ cells ℓ, ¬ s.Leaves ℓ c.2) ∧ (cells ℓ).length ≤ fuel := by
    unfold pass LinkedList.isEmpty at done
    rw [linked.numInList] at done
    split at done
    · rename_i empty
      have none : cells ℓ = [] := List.eq_nil_of_length_eq_zero (by simpa using empty)
      rw [none]
      exact ⟨List.forall_mem_nil _, Nat.zero_le _⟩
    · exact loop_ok (linked.segment ℓ) (linked.nodup_level ℓ) (linked.segment ℓ) (List.Subset.refl _) (linked.nodup_level ℓ) done
  refine ⟨stay.1, ?_⟩
  rw [pass_eq linked stay.1 stay.2] at done
  cases done
  rfl

/-- The threads of another queue are not touched by a pass. -/
theorem Linked.leaves_other (linked : s.Linked cells) {ℓ' : Level} (ne : ℓ ≠ ℓ') {c : ℕ × ThreadPtr} (mem : c ∈ cells ℓ') :
    (s.agedAll ((cells ℓ).map Prod.snd)).Leaves ℓ' c.2 ↔ s.Leaves ℓ' c.2 := by
  apply leaves_agedAll
  have all := linked.nodup
  rw [List.map_append, List.map_append, List.nodup_append', List.nodup_append'] at all
  obtain ⟨⟨-, -, d12⟩, -, d3⟩ := all
  rw [List.disjoint_append_left] at d3
  have here : c.2 ∈ (cells ℓ').map Prod.snd := List.mem_map_of_mem mem
  intro there
  cases ℓ with
  | L1 =>
    cases ℓ' with
    | L1 => exact ne rfl
    | L2 => exact d12 there here
    | L3 => exact d3.1 there here
  | L2 =>
    cases ℓ' with
    | L1 => exact d12 here there
    | L2 => exact ne rfl
    | L3 => exact d3.2 there here
  | L3 =>
    cases ℓ' with
    | L1 => exact d3.1 here there
    | L2 => exact d3.2 here there
    | L3 => exact ne rfl

theorem Linked.stay_next (linked : s.Linked cells) {ℓ' : Level} (ne : ℓ ≠ ℓ') (stay : ∀ c ∈ cells ℓ', ¬ s.Leaves ℓ' c.2) :
    ∀ c ∈ cells ℓ', ¬ (s.agedAll ((cells ℓ).map Prod.snd)).Leaves ℓ' c.2 := by
  intro c mem
  rw [linked.leaves_other ne mem]
  exact stay c mem

/-- The state after a call in which no thread leaves its queue. -/
def allAged (s : Queues) (cells : Level → List (ℕ × ThreadPtr)) : Queues :=
  ((s.agedAll ((cells .L1).map Prod.snd)).agedAll ((cells .L2).map Prod.snd)).agedAll ((cells .L3).map Prod.snd)

theorem updatePriority_ok (linked : s.Linked cells) (done : s.updatePriority fuel = .ok s') :
    ∀ ℓ, ∀ c ∈ cells ℓ, ¬ s.Leaves ℓ c.2 := by
  obtain ⟨s₁, first, done⟩ := bind_ok done
  obtain ⟨stay₁, rfl⟩ := pass_ok linked first
  have linked₁ := linked.agedAll ((cells .L1).map Prod.snd)
  obtain ⟨s₂, second, done⟩ := bind_ok done
  obtain ⟨stay₂, rfl⟩ := pass_ok linked₁ second
  have linked₂ := linked₁.agedAll ((cells .L2).map Prod.snd)
  obtain ⟨stay₃, -⟩ := pass_ok linked₂ done
  intro ℓ c mem leaves
  cases ℓ with
  | L1 => exact stay₁ c mem leaves
  | L2 => exact stay₂ c mem ((linked.leaves_other (by decide) mem).2 leaves)
  | L3 =>
    apply stay₃ c mem
    rw [linked₁.leaves_other (by decide) mem, linked.leaves_other (by decide) mem]
    exact leaves

theorem updatePriority_eq (linked : s.Linked cells) (stay : ∀ ℓ, ∀ c ∈ cells ℓ, ¬ s.Leaves ℓ c.2)
    (enough : ∀ ℓ, (cells ℓ).length ≤ fuel) : s.updatePriority fuel = .ok (s.allAged cells) := by
  have linked₁ := linked.agedAll ((cells .L1).map Prod.snd)
  have linked₂ := linked₁.agedAll ((cells .L2).map Prod.snd)
  have second := pass_eq linked₁ (linked.stay_next (by decide) (stay .L2)) (enough .L2)
  have third := pass_eq linked₂ (linked₁.stay_next (by decide) (linked.stay_next (by decide) (stay .L3))) (enough .L3)
  rw [updatePriority, pass_eq linked (stay .L1) (enough .L1)]
  change ((s.agedAll _).pass fuel .L2 >>= fun s => s.pass fuel .L3) = _
  rw [second]
  exact third

/-- A call ends, reads no field of a deleted element, and ages each ready thread once. -/
def AgesEach (s : Queues) (ready : List ThreadPtr) : Prop :=
  ∃ fuel s' log, s.updatePriority fuel = .ok s' ∧ s'.agings = s.agings ++ log ∧ log.Perm ready

/-- **The iterators are sound exactly when no element is removed under them.** -/
theorem agesEach_iff (linked : s.Linked cells) : s.AgesEach ((cells .L1 ++ cells .L2 ++ cells .L3).map Prod.snd) ↔
    (∀ c ∈ cells .L2, s.Due c.2 ∧ (s.threads c.2).ID = 0) ∧ ∀ c ∈ cells .L3, s.Due c.2 → (s.threads c.2).ID = 0 := by
  constructor
  · rintro ⟨fuel, s', log, done, -⟩
    have stay := updatePriority_ok linked done
    constructor
    · intro c mem
      exact not_not.1 (stay .L2 c mem)
    · intro c mem due
      by_contra other
      exact stay .L3 c mem ⟨due, other⟩
  · rintro ⟨two, three⟩
    have stay : ∀ ℓ, ∀ c ∈ cells ℓ, ¬ s.Leaves ℓ c.2 := by
      intro ℓ c mem
      cases ℓ with
      | L1 => exact not_false
      | L2 => exact not_not.2 (two c mem)
      | L3 => exact fun leaves => leaves.2 (three c mem leaves.1)
    refine ⟨(cells .L1).length + (cells .L2).length + (cells .L3).length, s.allAged cells, _, updatePriority_eq linked stay ?_, ?_,
      .refl _⟩
    · intro ℓ
      cases ℓ with
      | L1 => omega
      | L2 => omega
      | L3 => omega
    · rw [allAged, (agedAll_keep _ _).2.2, (agedAll_keep _ _).2.2, (agedAll_keep _ _).2.2, List.map_append, List.map_append,
        List.append_assoc, List.append_assoc, List.append_assoc]

/-! ## The same call on lists -/

/-- The threads of the kernel, its clock and its queues. -/
structure Shows (s : Queues) (cells : Level → List (ℕ × ThreadPtr)) (k : Kernel) : Prop where
  threads : k.threads = s.threads
  totalTicks : k.totalTicks = s.totalTicks
  readyList : ∀ ℓ, k.readyList ℓ = (cells ℓ).map Prod.snd

namespace Shows

variable {k : Kernel}

theorem stays_iff (h : s.Shows cells k) : k.Stays t ℓ ↔ ¬ s.Leaves ℓ t := by
  have due : k.upgraded t = true ↔ s.Due t := by
    rw [Kernel.upgraded, h.threads, h.totalTicks]
    exact aging_due
  cases ℓ with
  | L1 => exact iff_of_true trivial not_false
  | L2 => rw [Kernel.Stays, Leaves, not_not, due, h.threads]
  | L3 => rw [Kernel.Stays, Leaves, not_and_not_right, due, h.threads]

theorem aged (h : s.Shows cells k) (t : ThreadPtr) : (s.aging t).1.Shows cells (k.aged t) where
  threads := by
    rw [Kernel.aged, h.totalTicks]
    change Function.update k.threads t _ = _
    rw [h.threads]
    rfl
  totalTicks := h.totalTicks
  readyList := h.readyList

theorem agedAll (h : s.Shows cells k) (ts : List ThreadPtr) : (s.agedAll ts).Shows cells (ts.foldl Kernel.aged k) := by
  induction ts generalizing s k with
  | nil => exact h
  | cons t ts ih => exact ih (h.aged t)

/-- A pass over a queue that no thread leaves. -/
theorem pass (h : s.Shows cells k) (linked : s.Linked cells) (stay : ∀ c ∈ cells ℓ, ¬ s.Leaves ℓ c.2) :
    k.pass ℓ = .ok (((cells ℓ).map Prod.snd).foldl Kernel.aged k) := by
  have nodup := linked.nodup_level ℓ
  rw [Kernel.pass, h.readyList]
  split
  · rename_i empty
    rw [List.isEmpty_iff.1 empty]
    rfl
  refine Queue.walk_kept (fun r k' => k'.readyList ℓ = (cells ℓ).map Prod.snd ∧ r.Nodup ∧ ∀ t ∈ r, k'.Stays t ℓ) nodup
    (fun inv => inv.1) ?_ (p := []) ⟨h.readyList ℓ, nodup, ?_⟩ rfl ?_
  · rintro t r k' ⟨lists, distinct, stays⟩
    rw [List.nodup_cons] at distinct
    refine ⟨Kernel.visit_stays (stays t List.mem_cons_self), lists, distinct.2, fun u mem => ?_⟩
    have ne : u ≠ t := by
      rintro rfl
      exact distinct.1 mem
    exact (Kernel.stays_aged ne).2 (stays u (List.mem_cons_of_mem t mem))
  · intro t mem
    obtain ⟨c, there, rfl⟩ := List.mem_map.1 mem
    exact h.stays_iff.2 (stay c there)
  · nlinarith

end Shows

/-- **Where the iterators are sound**, the call does on the elements what it does on the lists of the kernel. -/
theorem Shows.updatePriority {k : Kernel} (h : s.Shows cells k) (linked : s.Linked cells)
    (stay : ∀ ℓ, ∀ c ∈ cells ℓ, ¬ s.Leaves ℓ c.2) (enough : ∀ ℓ, (cells ℓ).length ≤ fuel) :
    ∃ s' k', s.updatePriority fuel = .ok s' ∧ k.updatePriority = .ok k' ∧ s'.Shows cells k' := by
  have shows₁ := h.agedAll ((cells .L1).map Prod.snd)
  have linked₁ := linked.agedAll ((cells .L1).map Prod.snd)
  have shows₂ := shows₁.agedAll ((cells .L2).map Prod.snd)
  have linked₂ := linked₁.agedAll ((cells .L2).map Prod.snd)
  have second := shows₁.pass linked₁ (linked.stay_next (by decide) (stay .L2))
  have third := shows₂.pass linked₂ (linked₁.stay_next (by decide) (linked.stay_next (by decide) (stay .L3)))
  refine ⟨_, _, updatePriority_eq linked stay enough, ?_, shows₂.agedAll ((cells .L3).map Prod.snd)⟩
  rw [Kernel.updatePriority, h.pass linked (stay .L1)]
  change (Kernel.pass _ .L2 >>= fun k => k.pass .L3) = _
  rw [second]
  exact third

/-- Five threads have waited for 2000 ticks or less. The main thread, at address 3, stands in `L2`. -/
def waitingRoom : Queues where
  threads t :=
    match t with
    | 1 => { Thread.create 1 120 with status := .ready }
    | 2 => { Thread.create 2 110 with status := .ready, waitStartTime := 900 }
    | 3 => { Thread.create 0 95 with status := .ready }
    | 4 => { Thread.create 3 45 with status := .ready, waitStartTime := 700 }
    | _ => { Thread.create 4 20 with status := .ready }
  totalTicks := 2000
  heap := ⟨fun a => [⟨1, some 1⟩, ⟨2, none⟩, ⟨3, none⟩, ⟨4, some 4⟩, ⟨5, none⟩][a]?, 5⟩
  readyList
    | .L1 => ⟨some 0, some 1, 2⟩
    | .L2 => ⟨some 2, some 2, 1⟩
    | .L3 => ⟨some 3, some 4, 2⟩
  agings := []

def waitingCells : Level → List (ℕ × ThreadPtr)
  | .L1 => [(0, 1), (1, 2)]
  | .L2 => [(2, 3)]
  | .L3 => [(3, 4), (4, 5)]

theorem waitingRoom_linked : waitingRoom.Linked waitingCells := by
  refine ⟨fun ℓ => ?_, fun ℓ => ?_, by decide⟩
  · cases ℓ with
    | L1 => exact ⟨rfl, some 1, rfl, rfl, none, rfl, rfl⟩
    | L2 => exact ⟨rfl, none, rfl, rfl⟩
    | L3 => exact ⟨rfl, some 4, rfl, rfl, none, rfl, rfl⟩
  · cases ℓ with
    | L1 => rfl
    | L2 => rfl
    | L3 => rfl

/-- The main thread passes 100 and stays. No thread of `L3` passes 50: one has waited too short a time,
the priority of the other is too low. -/
theorem agesEach_iff_waitingRoom : waitingRoom.AgesEach [1, 2, 3, 4, 5] := by
  apply (agesEach_iff waitingRoom_linked).2
  refine ⟨List.forall_mem_singleton.2 ⟨⟨by decide, by decide⟩, rfl⟩, ?_⟩
  refine List.forall_mem_cons.2 ⟨fun due => ?_, List.forall_mem_singleton.2 fun due => ?_⟩
  · exact absurd due.1 (by decide)
  · exact absurd due.2 (by decide)

/-- One thread stands in one of the queues. -/
def single (ℓ : Level) (th : Thread) : Queues where
  threads _ := th
  totalTicks := 100
  heap := ⟨fun a => if a = 0 then some ⟨1, none⟩ else none, 1⟩
  readyList ℓ' := if ℓ' = ℓ then ⟨some 0, some 0, 1⟩ else ⟨none, none, 0⟩
  agings := []

def singleCells (ℓ ℓ' : Level) : List (ℕ × ThreadPtr) := if ℓ' = ℓ then [(0, 1)] else []

theorem single_linked (ℓ : Level) (th : Thread) : (single ℓ th).Linked (singleCells ℓ) := by
  constructor
  · intro ℓ'
    unfold single singleCells
    by_cases same : ℓ' = ℓ
    · simp only [same, if_true]
      exact ⟨rfl, none, rfl, rfl⟩
    · simp only [same, if_false]
      rfl
  · intro ℓ'
    unfold single singleCells
    by_cases same : ℓ' = ℓ
    · simp [same]
    · simp [same]
  · cases ℓ with
    | L1 => decide
    | L2 => decide
    | L3 => decide

/-- A thread of the middle queue is taken out and inserted again. -/
theorem deleted_element_read : (single .L2 (.create 1 60)).updatePriority 2 = .error .deleted ∧
    ¬ (single .L2 (.create 1 60)).AgesEach [1] := by
  refine ⟨rfl, ?_⟩
  rintro ⟨fuel, s', log, done, -⟩
  apply updatePriority_ok (single_linked .L2 (.create 1 60)) done .L2 (0, 1) List.mem_cons_self
  rintro ⟨-, main⟩
  cases main

end Queues

end Nachos.Mp3
