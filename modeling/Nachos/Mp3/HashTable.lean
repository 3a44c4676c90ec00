import Nachos.Base.Buckets
import Nachos.Mp3.ListClients

/-!
# Hash tables

`lib/hash.cc`: an array of lists, which grows when there are too many items for it. The elements of the
lists, old and new, lie in one heap.
-/

namespace Nachos.Mp3
open Cells Transition LinkedList

def initialBuckets : ℕ := 4
def resizeRatio : ℕ := 3
def increaseSizeBy : ℕ := 4

structure HashTable (α : Type) where
  heap : Heap α
  buckets : ℕ → LinkedList
  numBuckets : ℕ
  numItems : ℤ

namespace HashTable

section

variable {κ α : Type} [DecidableEq κ] [DecidableEq α]

/-- `HashTable::InitBuckets`. -/
def initBuckets (t : HashTable α) (sz : ℕ) : HashTable α := { t with buckets := fun _ => ⟨none, none, 0⟩, numBuckets := sz }

/-- `HashTable::HashTable`. -/
def new (heap : Heap α) : HashTable α := initBuckets ⟨heap, fun _ => ⟨none, none, 0⟩, 0, 0⟩ initialBuckets

def isEmpty (t : HashTable α) : Bool := t.numItems = 0

/-- The table with another list in a bucket. -/
def setBucket (t : HashTable α) (bucket : ℕ) (r : Heap α × LinkedList) : HashTable α :=
  { t with heap := r.1, buckets := Function.update t.buckets bucket r.2 }

/-- `HashTable::HashValue`. -/
def hashValue (hash : κ → ℕ) (t : HashTable α) (key : κ) : Except Fault ℕ := do
  let result := hash key % t.numBuckets
  assert (result < t.numBuckets)
  pure result

/-- The loop of `HashTable::FindInBucket`. -/
def findFrom (getKey : α → κ) (h : Heap α) (key : κ) : ℕ → Ptr → Except Fault (Option α)
  | _, none => pure none
  | 0, some _ => throw .diverges
  | fuel + 1, some ptr => do
    let c ← h.read (some ptr)
    if key = getKey c.item then pure (some c.item) else findFrom getKey h key fuel c.next

def findInBucket (getKey : α → κ) (fuel : ℕ) (t : HashTable α) (bucket : ℕ) (key : κ) : Except Fault (Option α) :=
  findFrom getKey t.heap key fuel (t.buckets bucket).first

/-- `HashTable::Find`: the item, if there is one. -/
def find (getKey : α → κ) (hash : κ → ℕ) (fuel : ℕ) (t : HashTable α) (key : κ) : Except Fault (Option α) := do
  let bucket ← t.hashValue hash key
  t.findInBucket getKey fuel bucket key

def isInTable (getKey : α → κ) (hash : κ → ℕ) (fuel : ℕ) (t : HashTable α) (key : κ) : Except Fault Bool := do
  let found ← t.find getKey hash fuel key
  pure found.isSome

/-- `buckets[HashValue(key)]->Append(item)`. -/
def put (getKey : α → κ) (hash : κ → ℕ) (fuel : ℕ) (t : HashTable α) (item : α) : Except Fault (HashTable α) := do
  let bucket ← t.hashValue hash (getKey item)
  let r ← (t.buckets bucket).append fuel t.heap item
  pure (t.setBucket bucket r)

/-- The loop of `HashTable::SanityCheck` over the items of bucket `i`. -/
def hashedFrom (getKey : α → κ) (hash : κ → ℕ) (t : HashTable α) (i : ℕ) : ℕ → Ptr → Except Fault Unit
  | _, none => pure ()
  | 0, some _ => throw .diverges
  | fuel + 1, some ptr => do
    let c ← t.heap.read (some ptr)
    let bucket ← t.hashValue hash (getKey c.item)
    assert (i = bucket)
    hashedFrom getKey hash t i fuel c.next

/-- A round of `HashTable::SanityCheck`, after which `numFound` counts bucket `i`. -/
def checkBucket (getKey : α → κ) (hash : κ → ℕ) (fuel : ℕ) (t : HashTable α) (numFound : ℤ) (i : ℕ) : Except Fault ℤ := do
  (t.buckets i).sanityCheck fuel t.heap
  t.hashedFrom getKey hash i fuel (t.buckets i).first
  pure (numFound + (t.buckets i).numInList)

/-- `HashTable::SanityCheck`. -/
def sanityCheck (getKey : α → κ) (hash : κ → ℕ) (fuel : ℕ) (t : HashTable α) : Except Fault Unit := do
  let numFound ← (List.range t.numBuckets).foldlM (t.checkBucket getKey hash fuel) 0
  assert (t.numItems = numFound)

/-- The inner loop of `HashTable::ReHash`: moves what is in a list of the old table. -/
def moveItems (getKey : α → κ) (hash : κ → ℕ) (fuel : ℕ) : ℕ → LinkedList → HashTable α → Except Fault (HashTable α)
  | 0, _, _ => throw .diverges
  | rounds + 1, old, t =>
    if old.isEmpty then pure t
    else do
      let (item, h, old) ← old.removeFront t.heap
      let t ← put getKey hash fuel { t with heap := h } item
      moveItems getKey hash fuel rounds old t

/-- `HashTable::ReHash`. -/
def reHash (getKey : α → κ) (hash : κ → ℕ) (fuel : ℕ) (t : HashTable α) : Except Fault (HashTable α) := do
  let oldTable := t.buckets
  let oldSize := t.numBuckets
  t.sanityCheck getKey hash fuel
  let t := t.initBuckets (t.numBuckets * increaseSizeBy)
  let t ← (List.range oldSize).foldlM (fun t i => moveItems getKey hash fuel fuel (oldTable i) t) t
  t.sanityCheck getKey hash fuel
  pure t

/-- How `HashTable::Insert` makes the table grow. -/
def grow (getKey : α → κ) (hash : κ → ℕ) (fuel : ℕ) (t : HashTable α) : Except Fault (HashTable α) :=
  if t.numItems.tdiv t.numBuckets ≥ resizeRatio then t.reHash getKey hash fuel else pure t

/-- `HashTable::Insert`. -/
def insert (getKey : α → κ) (hash : κ → ℕ) (fuel : ℕ) (t : HashTable α) (item : α) : Except Fault (HashTable α) := do
  let key := getKey item
  assert (! (← t.isInTable getKey hash fuel key))
  let t ← t.grow getKey hash fuel
  let t ← t.put getKey hash fuel item
  let t := { t with numItems := t.numItems + 1 }
  assert (← t.isInTable getKey hash fuel key)
  pure t

/-- `HashTable::Remove`. -/
def remove (getKey : α → κ) (hash : κ → ℕ) (fuel : ℕ) (t : HashTable α) (key : κ) : Except Fault (α × HashTable α) := do
  let bucket ← t.hashValue hash key
  match ← t.findInBucket getKey fuel bucket key with
  | none => throw .assertion
  | some item =>
    let r ← (t.buckets bucket).remove fuel t.heap item
    let t := t.setBucket bucket r
    let t := { t with numItems := t.numItems - 1 }
    assert (! (← t.isInTable getKey hash fuel key))
    pure (item, t)

/-- `HashTable::Apply`: the items to which the function is applied. -/
def apply (fuel : ℕ) (t : HashTable α) : Except Fault (List α) :=
  (List.range t.numBuckets).foldlM (fun items i => do
    let more ← (t.buckets i).apply fuel t.heap
    pure (items ++ more)) []

/-- The loop of `HashTable::FindNextFullBucket`, for as many rounds as there are buckets left. -/
def nextFull (t : HashTable α) : ℕ → ℕ → ℕ
  | 0, bucket => bucket
  | rounds + 1, bucket => if (t.buckets bucket).isEmpty then nextFull t rounds (bucket + 1) else bucket

def findNextFullBucket (t : HashTable α) (bucket : ℕ) : ℕ := t.nextFull (t.numBuckets - bucket) bucket

end

end HashTable

/-- A `HashIterator`: the bucket, and where `bucketIter` is in it. -/
structure HashIterator where
  bucket : ℕ
  bucketIter : Ptr

namespace HashIterator

variable {α : Type}

/-- The iterator at the first item of the next full bucket. -/
def enter (t : HashTable α) (bucket : ℕ) : HashIterator :=
  let bucket := t.findNextFullBucket bucket
  ⟨bucket, if bucket < t.numBuckets then (t.buckets bucket).first else none⟩

/-- `HashIterator::HashIterator`. -/
def new (t : HashTable α) : HashIterator := enter t 0

def isDone (t : HashTable α) (it : HashIterator) : Bool := it.bucket = t.numBuckets

def item (t : HashTable α) (it : HashIterator) : Except Fault α := do
  assert (! it.isDone t)
  let c ← t.heap.read it.bucketIter
  pure c.item

/-- `HashIterator::Next`. -/
def next (t : HashTable α) (it : HashIterator) : Except Fault HashIterator := do
  let c ← t.heap.read it.bucketIter
  pure (if c.next = none then enter t (it.bucket + 1) else { it with bucketIter := c.next })

/-- The items of the loop `for (; !iter->IsDone(); iter->Next())`. -/
def visit (t : HashTable α) : ℕ → HashIterator → Except Fault (List α)
  | 0, _ => throw .diverges
  | rounds + 1, it =>
    if it.isDone t then pure []
    else do
      let x ← it.item t
      let it ← it.next t
      let xs ← visit t rounds it
      pure (x :: xs)

end HashIterator

end Nachos.Mp3
