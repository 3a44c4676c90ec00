import Nachos.Mp3.HashMap

/-!
# Clients of a hash table

Whatever calls are made on a table, in any order, they answer as a partial map does. Iteration gives every
item once, in an order that is nobody's business.
-/

namespace Nachos.Mp3
open Cells Transition LinkedList Buckets

/-! ## Stepping through a table -/

variable {κ α : Type} {getKey : α → κ} {hash : κ → ℕ} {fuel rounds n b : ℕ} {t t' : HashTable α} {cells : ℕ → List (ℕ × α)}
  {M M' : κ → Option α} {it : HashIterator} {x : α} {xs : List α}

/-- The items of the buckets from `b` on. -/
def itemsFrom (cells : ℕ → List (ℕ × α)) (n b : ℕ) : List α := (List.range' b (n - b)).flatMap (itemsOf cells)

theorem itemsFrom_end (cells : ℕ → List (ℕ × α)) (n : ℕ) : itemsFrom cells n n = [] := by
  rw [itemsFrom, Nat.sub_self]
  rfl

theorem itemsFrom_succ (small : b < n) : itemsFrom cells n b = itemsOf cells b ++ itemsFrom cells n (b + 1) := by
  rw [itemsFrom, itemsFrom, ← Nat.succ_sub_one (n - b), Nat.succ_eq_add_one, show n - b + 1 - 1 = n - (b + 1) + 1 by omega,
    List.range'_succ, List.flatMap_cons]

theorem itemsFrom_zero (cells : ℕ → List (ℕ × α)) (n : ℕ) : itemsFrom cells n 0 = (List.range n).flatMap (itemsOf cells) := by
  rw [itemsFrom, Nat.sub_zero, List.range_eq_range']

/-- The iterator is at the first of the items `xs`. -/
def HashIterator.At (t : HashTable α) (cells : ℕ → List (ℕ × α)) (it : HashIterator) (xs : List α) : Prop :=
  it.bucket = t.numBuckets ∧ xs = [] ∨
  ∃ c own, it.bucket < t.numBuckets ∧ Segment t.heap it.bucketIter (c :: own) none ∧
    xs = c.2 :: own.map Prod.snd ++ itemsFrom cells t.numBuckets (it.bucket + 1)

/-- The loop of `FindNextFullBucket` passes empty buckets only. -/
theorem nextFull_ok (lists : Lists.Hold ⟨t.heap, t.buckets⟩ cells) (rounds : ℕ) (b : ℕ) (left : b + rounds = t.numBuckets) :
    t.nextFull rounds b = t.numBuckets ∧ itemsFrom cells t.numBuckets b = [] ∨
    t.nextFull rounds b < t.numBuckets ∧ cells (t.nextFull rounds b) ≠ [] ∧
      itemsFrom cells t.numBuckets b =
        itemsOf cells (t.nextFull rounds b) ++ itemsFrom cells t.numBuckets (t.nextFull rounds b + 1) := by
  induction rounds generalizing b with
  | zero =>
    obtain rfl : b = t.numBuckets := left
    exact .inl ⟨rfl, itemsFrom_end cells _⟩
  | succ rounds ih =>
    have bucket : (t.buckets b).Holds t.heap (cells b) := lists.holds b
    have small : b < t.numBuckets := by omega
    rw [HashTable.nextFull, bucket.isEmpty]
    cases own : cells b with
    | nil =>
      have none : itemsOf cells b = [] := by
        rw [itemsOf, own]
        rfl
      rw [itemsFrom_succ small, none, List.nil_append]
      exact ih (b + 1) (by omega)
    | cons c rest =>
      have filled : cells b ≠ [] := by
        rw [own]
        exact List.cons_ne_nil _ _
      exact .inr ⟨small, filled, itemsFrom_succ small⟩

theorem HashIterator.enter_at (lists : Lists.Hold ⟨t.heap, t.buckets⟩ cells) (within : b ≤ t.numBuckets) :
    (enter t b).At t cells (itemsFrom cells t.numBuckets b) := by
  obtain ⟨past, none⟩ | ⟨small, filled, items⟩ := nextFull_ok lists (t.numBuckets - b) b (by omega)
  · exact .inl ⟨past, none⟩
  · obtain ⟨c, own, here⟩ := List.exists_cons_of_ne_nil filled
    have bucket : (t.buckets _).Holds t.heap (cells _) := lists.holds (t.nextFull (t.numBuckets - b) b)
    refine .inr ⟨c, own, small, ?_, ?_⟩
    · rw [here] at bucket
      show Segment t.heap (if t.nextFull (t.numBuckets - b) b < t.numBuckets then _ else none) _ none
      rw [if_pos small]
      exact bucket.segment
    · rw [items, itemsOf, here]
      rfl

/-- `Item` and `Next`. -/
theorem HashIterator.At.next (lists : Lists.Hold ⟨t.heap, t.buckets⟩ cells) (standing : it.At t cells (x :: xs)) :
    it.isDone t = false ∧ it.item t = .ok x ∧ ∃ it', it.next t = .ok it' ∧ it'.At t cells xs := by
  obtain ⟨-, none⟩ | ⟨c, own, small, segment, items⟩ := standing
  · cases none
  · obtain ⟨rfl, rfl⟩ := List.cons.inj items
    obtain ⟨first, n, here, rest⟩ := segment
    have going : it.isDone t = false := decide_eq_false small.ne
    have read : t.heap.read it.bucketIter = .ok ⟨c.2, n⟩ := by
      rw [first]
      exact Heap.read_some here
    refine ⟨going, ?_, ?_⟩
    · rw [HashIterator.item, going, read]
      rfl
    · rw [HashIterator.next, read]
      cases own with
      | nil =>
        obtain rfl : n = none := rest
        exact ⟨_, rfl, enter_at lists small⟩
      | cons d own =>
        refine ⟨⟨it.bucket, n⟩, ?_, .inr ⟨d, own, small, rest, rfl⟩⟩
        change Except.ok (if n = none then _ else _) = _
        rw [if_neg (by rw [rest.1]; exact Option.some_ne_none _)]

/-- **An iteration** visits all items. -/
theorem HashIterator.visit_ok (lists : Lists.Hold ⟨t.heap, t.buckets⟩ cells) (standing : it.At t cells xs) (enough : xs.length < rounds) :
    visit t rounds it = .ok xs := by
  induction xs generalizing it rounds with
  | nil =>
    cases rounds with
    | zero => exact absurd enough (Nat.not_lt_zero _)
    | succ rounds =>
      obtain ⟨past, -⟩ | ⟨c, own, -, -, items⟩ := standing
      · have done : it.isDone t = true := decide_eq_true past
        rw [visit, if_pos done]
        rfl
      · cases items
  | cons x xs ih =>
    cases rounds with
    | zero => exact absurd enough (Nat.not_lt_zero _)
    | succ rounds =>
      obtain ⟨going, item, it', next, standing'⟩ := standing.next lists
      rw [visit, going, item]
      change (it.next t >>= _) = _
      rw [next]
      change (visit t rounds it' >>= _) = _
      rw [ih standing' (Nat.lt_of_succ_lt_succ enough)]
      rfl

/-- **`Apply`** goes through the buckets. -/
theorem HashTable.apply_ok (lists : Lists.Hold ⟨t.heap, t.buckets⟩ cells) (enough : ∀ i, (cells i).length ≤ fuel) :
    t.apply fuel = .ok ((List.range t.numBuckets).flatMap (itemsOf cells)) := by
  have rounds (n : ℕ) : (List.range n).foldlM (fun items i => do
      let more ← (t.buckets i).apply fuel t.heap
      pure (items ++ more)) [] = .ok ((List.range n).flatMap (itemsOf cells)) := by
    induction n with
    | zero => rfl
    | succ n ih =>
      have bucket : (t.buckets n).Holds t.heap (cells n) := lists.holds n
      have visited : (t.buckets n).apply fuel t.heap = .ok (itemsOf cells n) := applyFrom_ok bucket.segment (enough n)
      rw [List.range_succ, List.foldlM_append, ih]
      change (((t.buckets n).apply fuel t.heap >>= _) >>= _) = _
      rw [visited, List.flatMap_append, List.flatMap_singleton]
      rfl
  exact rounds t.numBuckets

/-! ## Calls -/

inductive HashCall (κ α : Type) where
  | insert (item : α)
  | remove (key : κ)
  | find (key : κ)
  | isInTable (key : κ)
  | isEmpty
  | apply
  | iterate
  | sanityCheck

inductive HashAnswer (α : Type) where
  | done
  | item (x : α)
  | found (x : Option α)
  | yes (b : Bool)
  | items (xs : List α)

variable [DecidableEq κ] [DecidableEq α]

/-- One call; `iterate` is a loop over a `HashIterator`. -/
def HashTable.call (getKey : α → κ) (hash : κ → ℕ) (fuel : ℕ) (t : HashTable α) : HashCall κ α → Except Fault (HashAnswer α × HashTable α)
  | .insert item => do
    let t ← t.insert getKey hash fuel item
    pure (.done, t)
  | .remove key => do
    let (x, t) ← t.remove getKey hash fuel key
    pure (.item x, t)
  | .find key => do
    let x ← t.find getKey hash fuel key
    pure (.found x, t)
  | .isInTable key => do
    let b ← t.isInTable getKey hash fuel key
    pure (.yes b, t)
  | .isEmpty => pure (.yes t.isEmpty, t)
  | .apply => do
    let xs ← t.apply fuel
    pure (.items xs, t)
  | .iterate => do
    let xs ← HashIterator.visit t fuel (.new t)
    pure (.items xs, t)
  | .sanityCheck => do
    t.sanityCheck getKey hash fuel
    pure (.done, t)

/-- What a map answers. -/
inductive MapStep (getKey : α → κ) (M : κ → Option α) : HashCall κ α → HashAnswer α → (κ → Option α) → Prop where
  | inserted {item : α} : M (getKey item) = none → MapStep getKey M (.insert item) .done (Function.update M (getKey item) (some item))
  | removed {key : κ} {x : α} : M key = some x → MapStep getKey M (.remove key) (.item x) (Function.update M key none)
  | found {key : κ} : MapStep getKey M (.find key) (.found (M key)) M
  | member {key : κ} : MapStep getKey M (.isInTable key) (.yes (M key).isSome) M
  | isEmpty {b : Bool} : (b = true ↔ ∀ k, M k = none) → MapStep getKey M .isEmpty (.yes b) M
  | applied {xs : List α} : xs.Nodup → (∀ x, x ∈ xs ↔ M (getKey x) = some x) → MapStep getKey M .apply (.items xs) M
  | visited {xs : List α} : xs.Nodup → (∀ x, x ∈ xs ↔ M (getKey x) = some x) → MapStep getKey M .iterate (.items xs) M
  | sane : MapStep getKey M .sanityCheck .done M

/-- `Insert` asserts that the key is new, `Remove` that it is not. -/
def HashCall.Proper (getKey : α → κ) (M : κ → Option α) : HashCall κ α → Prop
  | .insert item => M (getKey item) = none
  | .remove key => M key ≠ none
  | _ => True

namespace HashTable.Sound

omit [DecidableEq κ] [DecidableEq α] in
theorem isEmpty (sound : Sound getKey hash t cells M) : t.isEmpty = true ↔ ∀ k, M k = none := by
  rw [HashTable.isEmpty, decide_eq_true_iff, sound.count, Int.natCast_eq_zero, total_eq_zero]
  constructor
  · exact fun none => sound.spread.eq_none fun k => none _ (Nat.mod_lt _ sound.pos)
  · intro none i _
    refine List.eq_nil_iff_forall_not_mem.2 fun x mem => ?_
    have there := sound.spread.mem mem
    rw [none] at there
    cases there

/-- **Every proper call** returns, with what the map answers. -/
theorem call (sound : Sound getKey hash t cells M) (enough : t.numItems + 1 < fuel) {c : HashCall κ α} (ok : c.Proper getKey M) :
    ∃ a t' cells' M', t.call getKey hash fuel c = .ok (a, t') ∧ Sound getKey hash t' cells' M' ∧ MapStep getKey M c a M' := by
  have room : t.numItems < fuel := by omega
  have short (i : ℕ) := (sound.short room i).le
  have all := sound.spread.all fun k => Nat.mod_lt (hash k) sound.pos
  cases c with
  | insert item =>
    obtain ⟨t', cells', done, sound'⟩ := sound.insert ok enough
    exact ⟨.done, t', cells', _, by rw [HashTable.call, done]; rfl, sound', .inserted ok⟩
  | remove key =>
    obtain ⟨x, present⟩ := Option.ne_none_iff_exists'.1 ok
    obtain ⟨t', cells', done, sound'⟩ := sound.remove present room
    exact ⟨.item x, t', cells', _, by rw [HashTable.call, done]; rfl, sound', .removed present⟩
  | find key => exact ⟨.found (M key), t, cells, M, by rw [HashTable.call, sound.holds.find short]; rfl, sound, .found⟩
  | isInTable key => exact ⟨.yes (M key).isSome, t, cells, M, by rw [HashTable.call, sound.holds.isInTable short]; rfl, sound, .member⟩
  | isEmpty => exact ⟨.yes t.isEmpty, t, cells, M, rfl, sound, .isEmpty sound.isEmpty⟩
  | apply =>
    refine ⟨.items _, t, cells, M, ?_, sound, .applied all.1 all.2⟩
    rw [HashTable.call, HashTable.apply_ok sound.lists short]
    rfl
  | iterate =>
    have start := HashIterator.enter_at sound.lists (Nat.zero_le t.numBuckets)
    rw [itemsFrom_zero] at start
    have rounds : ((List.range t.numBuckets).flatMap (itemsOf cells)).length < fuel := by
      have count := sound.count
      rw [length_all]
      omega
    refine ⟨.items _, t, cells, M, ?_, sound, .visited all.1 all.2⟩
    rw [HashTable.call, HashIterator.new, HashIterator.visit_ok sound.lists start rounds]
    rfl
  | sanityCheck => exact ⟨.done, t, cells, M, by rw [HashTable.call, sound.check room]; rfl, sound, .sane⟩

/-- Any other call fails an `ASSERT`. -/
theorem call_improper (sound : Sound getKey hash t cells M) (enough : t.numItems + 1 < fuel) {c : HashCall κ α}
    (improper : ¬ c.Proper getKey M) : t.call getKey hash fuel c = .error .assertion := by
  have room : t.numItems < fuel := by omega
  cases c with
  | insert item => rw [HashTable.call, sound.insert_present improper room]; rfl
  | remove key => rw [HashTable.call, sound.remove_absent (not_not.1 improper) room]; rfl
  | find key | isInTable key | isEmpty | apply | iterate | sanityCheck => exact absurd trivial improper

end HashTable.Sound

/-- A call that returns, in a number of rounds that is no bound for it. -/
def HashTable.Calls (getKey : α → κ) (hash : κ → ℕ) (t : HashTable α) (c : HashCall κ α) (a : HashAnswer α) (t' : HashTable α) : Prop :=
  ∃ fuel : ℕ, t.numItems + 1 < fuel ∧ t.call getKey hash fuel c = .ok (a, t')

/-- **A hash table is a map.** In every run of calls, whatever the hash function is, the calls answer as those
of a map do; the lists have three items each on the average at most; and the next call returns what the map
answers, or fails an `ASSERT` where it inserts a key that is there or removes one that is not. -/
theorem hashTable_refines (getKey : α → κ) (hash : κ → ℕ) (heap : Heap α) {log : List (HashCall κ α × HashAnswer α)}
    (run : Trace (HashTable.Calls getKey hash) (fun _ _ => True) (HashTable.new heap) log t) :
    ∃ M, Trace (MapStep getKey) (fun M c => c.Proper getKey M) (fun _ => none) log M ∧ t.numItems ≤ resizeRatio * t.numBuckets ∧
      ∀ (c : HashCall κ α) (fuel : ℕ), t.numItems + 1 < fuel →
        (c.Proper getKey M → ∃ a t' M', t.call getKey hash fuel c = .ok (a, t') ∧ MapStep getKey M c a M') ∧
        (¬ c.Proper getKey M → t.call getKey hash fuel c = .error .assertion) := by
  have forward : ∀ (t : HashTable α) c a t' M, (∃ cells, HashTable.Sound getKey hash t cells M) → True →
      HashTable.Calls getKey hash t c a t' →
      (id c).Proper getKey M ∧ ∃ M', MapStep getKey M (id c) a M' ∧ ∃ cells, HashTable.Sound getKey hash t' cells M' := by
    rintro t c a t' M ⟨cells, sound⟩ - ⟨fuel, enough, call⟩
    by_cases ok : c.Proper getKey M
    · obtain ⟨a', t'', cells', M', call', sound', step⟩ := sound.call enough ok
      cases Except.ok.inj (call.symm.trans call')
      exact ⟨ok, M', step, cells', sound'⟩
    · cases call.symm.trans (sound.call_improper enough ok)
  obtain ⟨M, run', cells, sound⟩ := run.refine (fun M c => c.Proper getKey M) _ id ⟨_, .new heap⟩ forward
  rw [show Prod.map (id : HashCall κ α → _) (id : HashAnswer α → _) = id from Prod.map_id, List.map_id] at run'
  refine ⟨M, run', sound.load, fun c fuel enough => ⟨fun ok => ?_, sound.call_improper enough⟩⟩
  obtain ⟨a, t', -, M', call, -, step⟩ := sound.call enough ok
  exact ⟨a, t', M', call, step⟩

/-- Two items whose keys have the same bucket. -/
theorem hashTable_refines_collision : ∃ t M,
    Trace (HashTable.Calls (id : ℕ → ℕ) id) (fun _ _ => True) (HashTable.new .empty)
      [(.insert 1, .done), (.insert 5, .done), (.remove 1, .item 1), (.find 5, .found (some 5))] t ∧
    Trace (MapStep (id : ℕ → ℕ)) (fun M c => c.Proper id M) (fun _ => none)
      [(.insert 1, .done), (.insert 5, .done), (.remove 1, .item 1), (.find 5, .found (some 5))] M ∧ t.numItems ≤ 12 := by
  have calls : ∃ t, Trace (HashTable.Calls (id : ℕ → ℕ) id) (fun _ _ => True) (HashTable.new .empty)
      [(.insert 1, .done), (.insert 5, .done), (.remove 1, .item 1), (.find 5, .found (some 5))] t ∧ t.numBuckets = 4 :=
    ⟨_, (((Trace.nil.snoc trivial ⟨3, by decide, rfl⟩).snoc trivial ⟨4, by decide, rfl⟩).snoc trivial ⟨4, by decide, rfl⟩).snoc trivial
      ⟨4, by decide, rfl⟩, rfl⟩
  obtain ⟨t, run, numBuckets⟩ := calls
  obtain ⟨M, run', load, -⟩ := hashTable_refines id id .empty run
  rw [numBuckets] at load
  exact ⟨t, M, run, run', load⟩

end Nachos.Mp3
