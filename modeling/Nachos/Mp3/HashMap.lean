import Nachos.Mp3.HashTable

/-!
# Hash tables are maps

A table shows a partial map from keys to items. `Insert`, `Remove` and `Find` do on it what they say,
`ReHash` moves every item and changes nothing that shows, and no check of the table or of its lists fails.
-/

namespace Nachos.Mp3
open Cells Transition LinkedList Buckets

/-! ## Lists in a common heap -/

namespace Lists

variable {ι ι' α : Type} {h : Heap α} {list : ι → LinkedList} {cells : ι → List (ℕ × α)}

/-- Some of the lists. -/
theorem Hold.comp (hold : Hold ⟨h, list⟩ cells) {f : ι' → ι} (inj : f.Injective) : Hold ⟨h, list ∘ f⟩ (cells ∘ f) where
  holds i := hold.holds (f i)
  apart i j ne := hold.apart (f i) (f j) fun same => ne (inj same)
  distinct i := hold.distinct (f i)

/-- New lists with nothing in them. -/
theorem Hold.more (hold : Hold ⟨h, list⟩ cells) :
    Hold ⟨h, Sum.elim list fun _ : ι' => ⟨none, none, 0⟩⟩ (Sum.elim cells fun _ => []) where
  holds
    | .inl i => hold.holds i
    | .inr _ => ⟨rfl, rfl, rfl, List.nodup_nil, fun _ mem => by cases mem⟩
  apart
    | .inl i, .inl j, ne => hold.apart i j fun same => ne (congrArg Sum.inl same)
    | .inr _, _, _ => List.disjoint_nil_left _
    | .inl _, .inr _, _ => List.disjoint_nil_right _
  distinct
    | .inl i => hold.distinct i
    | .inr _ => List.nodup_nil

theorem Hold.right {old : ι' → LinkedList} {oldCells : ι' → List (ℕ × α)}
    (hold : Hold ⟨h, Sum.elim old list⟩ (Sum.elim oldCells cells)) : Hold ⟨h, list⟩ cells := hold.comp Sum.inr_injective

theorem Hold.swap {old : ι' → LinkedList} {oldCells : ι' → List (ℕ × α)}
    (hold : Hold ⟨h, Sum.elim old list⟩ (Sum.elim oldCells cells)) : Hold ⟨h, Sum.elim list old⟩ (Sum.elim cells oldCells) := by
  have swapped := hold.comp (f := Sum.swap) Sum.swap_leftInverse.injective
  rwa [Sum.elim_swap, Sum.elim_swap] at swapped

end Lists

namespace HashTable

variable {κ α : Type} [DecidableEq κ] [DecidableEq α] {getKey : α → κ} {hash : κ → ℕ} {fuel rounds m : ℕ} {t t' : HashTable α}
  {old : ℕ → LinkedList} {oldCells cells : ℕ → List (ℕ × α)} {M M₁ M₂ : κ → Option α} {item x : α} {key : κ} {i T : ℕ} {l : LinkedList}

/-- The lists of the table hold the items of `M`; the lists of an old table may be in the heap beside them. -/
structure Holds (getKey : α → κ) (hash : κ → ℕ) (t : HashTable α) (old : ℕ → LinkedList) (oldCells cells : ℕ → List (ℕ × α))
    (M : κ → Option α) : Prop where
  lists : Lists.Hold ⟨t.heap, Sum.elim old t.buckets⟩ (Sum.elim oldCells cells)
  pos : 0 < t.numBuckets
  spread : Spread getKey (fun k => hash k % t.numBuckets) (itemsOf cells) M

omit [DecidableEq κ] [DecidableEq α] in
theorem Holds.bucket (holds : Holds getKey hash t old oldCells cells M) (i : ℕ) : (t.buckets i).Holds t.heap (cells i) :=
  holds.lists.holds (.inr i)

omit [DecidableEq κ] [DecidableEq α] in
theorem hashValue_ok (pos : 0 < t.numBuckets) (key : κ) : t.hashValue hash key = .ok (hash key % t.numBuckets) := by
  have small : hash key % t.numBuckets < t.numBuckets := Nat.mod_lt _ pos
  rw [hashValue, decide_eq_true small]
  rfl

omit [DecidableEq α] in
/-- The loop looks through the items. -/
theorem findFrom_ok {h : Heap α} {p : Ptr} {own : List (ℕ × α)} (segment : Segment h p own none) (enough : own.length ≤ fuel) (key : κ) :
    findFrom getKey h key fuel p = .ok ((own.map Prod.snd).find? fun x => key = getKey x) := by
  induction own generalizing p fuel with
  | nil =>
    obtain rfl : p = none := segment
    cases fuel <;> rfl
  | cons c own ih =>
    obtain ⟨rfl, n, here, rest⟩ := segment
    cases fuel with
    | zero => exact absurd enough (by simp)
    | succ fuel =>
      rw [findFrom, Heap.read_some here, List.map_cons, List.find?_cons]
      change (if key = getKey c.2 then _ else _) = _
      by_cases same : key = getKey c.2
      · rw [if_pos same, decide_eq_true same]
        rfl
      · rw [if_neg same, decide_eq_false same]
        exact ih rest (by simpa using enough)

omit [DecidableEq α] in
/-- **`Find`.** -/
theorem Holds.find (holds : Holds getKey hash t old oldCells cells M) (enough : ∀ i, (cells i).length ≤ fuel) (key : κ) :
    t.find getKey hash fuel key = .ok (M key) := by
  have segment := (holds.bucket (hash key % t.numBuckets)).segment
  rw [HashTable.find, hashValue_ok holds.pos]
  change t.findInBucket getKey fuel (hash key % t.numBuckets) key = _
  rw [findInBucket, findFrom_ok segment (enough _) key, ← holds.spread.find key]
  rfl

omit [DecidableEq α] in
theorem Holds.isInTable (holds : Holds getKey hash t old oldCells cells M) (enough : ∀ i, (cells i).length ≤ fuel) (key : κ) :
    t.isInTable getKey hash fuel key = .ok (M key).isSome := by
  rw [HashTable.isInTable, holds.find enough]
  rfl

/-- **`Append`** to the bucket of the item. -/
theorem Holds.put (holds : Holds getKey hash t old oldCells cells M) (absent : M (getKey item) = none)
    (enough : ∀ i, (cells i).length < fuel) : ∃ t' cells', t.put getKey hash fuel item = .ok t' ∧
      Holds getKey hash t' old oldCells cells' (Function.update M (getKey item) (some item)) ∧
      t'.numBuckets = t.numBuckets ∧ t'.numItems = t.numItems ∧
      itemsOf cells' = Function.update (itemsOf cells) (hash (getKey item) % t.numBuckets)
        (itemsOf cells (hash (getKey item) % t.numBuckets) ++ [item]) := by
  have new : item ∉ (cells (hash (getKey item) % t.numBuckets)).map Prod.snd := by
    intro mem
    rw [holds.spread.mem mem] at absent
    cases absent
  have spread := holds.spread.insert absent
  obtain ⟨h', l', done, added⟩ := append_ok (holds.bucket _) new (enough _)
  have distinct : ((cells (hash (getKey item) % t.numBuckets) ++ [(t.heap.brk, item)]).map Prod.snd).Nodup := by
    have nodup := spread.nodup (hash (getKey item) % t.numBuckets)
    rw [Function.update_self] at nodup
    rw [List.map_append]
    exact nodup
  have lists := holds.lists.update (i := (Sum.inr (hash (getKey item) % t.numBuckets) : ℕ ⊕ ℕ)) added.holds added.touches distinct
  rw [Lists.set, Sum.update_elim_inr, Sum.update_elim_inr] at lists
  have items := itemsOf_update cells (hash (getKey item) % t.numBuckets)
    (cells (hash (getKey item) % t.numBuckets) ++ [(t.heap.brk, item)])
  rw [List.map_append] at items
  refine ⟨t.setBucket _ (h', l'), _, ?_, ⟨lists, holds.pos, ?_⟩, rfl, rfl, items⟩
  · rw [HashTable.put, hashValue_ok holds.pos]
    change ((t.buckets _).append fuel t.heap item >>= _) = _
    rw [done]
    rfl
  · rw [items]
    exact spread

/-! ## Moving to a larger table -/

/-- Items of `M` are in the old table (`M₁`) or in the new one (`M₂`). -/
structure Moving (getKey : α → κ) (hash : κ → ℕ) (m : ℕ) (t : HashTable α) (old : ℕ → LinkedList)
    (oldCells cells : ℕ → List (ℕ × α)) (M₁ M₂ M : κ → Option α) (T : ℕ) : Prop where
  holds : Holds getKey hash t old oldCells cells M₂
  posOld : 0 < m
  spreadOld : Spread getKey (fun k => hash k % m) (itemsOf oldCells) M₁
  union : ∀ k, M k = (M₁ k).or (M₂ k)
  apart : ∀ k, M₁ k = none ∨ M₂ k = none
  count : total m (itemsOf oldCells) + total t.numBuckets (itemsOf cells) = T

omit [DecidableEq κ] [DecidableEq α] in
theorem Moving.length_le (moving : Moving getKey hash m t old oldCells cells M₁ M₂ M T) (i : ℕ) : (cells i).length ≤ T := by
  have le := moving.holds.spread.length_le (fun k => Nat.mod_lt _ moving.holds.pos) i
  have count := moving.count
  rw [itemsOf, List.length_map] at le
  omega

/-- The first item of an old bucket goes to its new one. -/
theorem Moving.step (moving : Moving getKey hash m t old oldCells cells M₁ M₂ M T) (enough : T < fuel) {a : ℕ} {rest : List (ℕ × α)}
    (own : oldCells i = (a, x) :: rest) : ∃ h' l' t' cells' M₁' M₂', (old i).removeFront t.heap = .ok (x, h', l') ∧
      put getKey hash fuel { t with heap := h' } x = .ok t' ∧ t'.numBuckets = t.numBuckets ∧ t'.numItems = t.numItems ∧
      Moving getKey hash m t' (Function.update old i l') (Function.update oldCells i rest) cells' M₁' M₂' M T := by
  have front : (old i).Holds t.heap ((a, x) :: rest) := own ▸ moving.holds.lists.holds (.inl i)
  obtain ⟨h', l', done, -, dropped⟩ := removeFront_touches front
  have mem : x ∈ itemsOf oldCells i := by
    rw [itemsOf, own]
    exact List.mem_cons_self
  obtain rfl : hash (getKey x) % m = i := moving.spreadOld.placed mem
  have present := moving.spreadOld.mem mem
  have absent : M₂ (getKey x) = none := (moving.apart (getKey x)).resolve_left (by rw [present]; exact Option.some_ne_none x)
  have distinct := moving.spreadOld.nodup (hash (getKey x) % m)
  have erased : (itemsOf oldCells (hash (getKey x) % m)).erase x = rest.map Prod.snd := by
    rw [itemsOf, own, List.map_cons, List.erase_cons_head]
  have lists := moving.holds.lists.update (i := (Sum.inl (hash (getKey x) % m) : ℕ ⊕ ℕ)) dropped.holds
    (by rw [Sum.elim_inl, own]; exact dropped.touches) (erased ▸ distinct.erase x)
  rw [Lists.set, Sum.update_elim_inl, Sum.update_elim_inl] at lists
  have left : Holds getKey hash { t with heap := h' } _ _ cells M₂ := ⟨lists, moving.holds.pos, moving.holds.spread⟩
  obtain ⟨t', cells', stored, holds', numBuckets, numItems, items⟩ :=
    left.put absent fun j => (moving.length_le j).trans_lt enough
  dsimp only at numBuckets numItems items
  have spreadOld := moving.spreadOld.remove present
  rw [erased, ← itemsOf_update] at spreadOld
  refine ⟨h', l', t', cells', _, _, done, stored, numBuckets, numItems, holds', moving.posOld, spreadOld, fun k => ?_, fun k => ?_, ?_⟩
  · rw [moving.union k]
    rcases eq_or_ne k (getKey x) with rfl | other
    · rw [Function.update_self, Function.update_self, present]
      rfl
    · rw [Function.update_of_ne other, Function.update_of_ne other]
  · rcases eq_or_ne k (getKey x) with rfl | other
    · exact .inl (Function.update_self ..)
    · rw [Function.update_of_ne other, Function.update_of_ne other]
      exact moving.apart k
  · have count := moving.count
    have fewer := total_update (itemsOf oldCells) (Nat.mod_lt (hash (getKey x)) moving.posOld) (rest.map Prod.snd)
    have more := total_update (itemsOf cells) (Nat.mod_lt (hash (getKey x)) moving.holds.pos)
      (itemsOf cells (hash (getKey x) % t.numBuckets) ++ [x])
    have before : (itemsOf oldCells (hash (getKey x) % m)).length = rest.length + 1 := by
      rw [itemsOf, own, List.map_cons, List.length_cons, List.length_map]
    rw [List.length_append, List.length_singleton] at more
    rw [List.length_map] at fewer
    rw [numBuckets, items, itemsOf_update]
    omega

/-- The inner loop empties an old bucket. -/
theorem Moving.moveItems (moving : Moving getKey hash m t old oldCells cells M₁ M₂ M T) (enough : T < fuel) {own : List (ℕ × α)}
    (here : oldCells i = own) (more : own.length < rounds) :
    ∃ t' l' cells' M₁' M₂', moveItems getKey hash fuel rounds (old i) t = .ok t' ∧ t'.numBuckets = t.numBuckets ∧
      t'.numItems = t.numItems ∧
      Moving getKey hash m t' (Function.update old i l') (Function.update oldCells i []) cells' M₁' M₂' M T := by
  have bucket : (old i).Holds t.heap (oldCells i) := moving.holds.lists.holds (.inl i)
  induction own generalizing t old oldCells cells M₁ M₂ rounds with
  | nil =>
    cases rounds with
    | zero => exact absurd more (Nat.not_lt_zero _)
    | succ rounds =>
      rw [HashTable.moveItems, bucket.isEmpty, here]
      refine ⟨t, old i, cells, M₁, M₂, rfl, rfl, rfl, ?_⟩
      rw [Function.update_eq_self, ← here, Function.update_eq_self]
      exact moving
  | cons c rest ih =>
    cases rounds with
    | zero => exact absurd more (Nat.not_lt_zero _)
    | succ rounds =>
      obtain ⟨a, x⟩ := c
      obtain ⟨h', l', t₁, cells₁, M₁', M₂', done, stored, numBuckets, numItems, moving₁⟩ := moving.step enough here
      obtain ⟨t', l'', cells', M₁'', M₂'', moved, numBuckets', numItems', moving'⟩ :=
        ih moving₁ (Function.update_self ..) (Nat.lt_of_succ_lt_succ more) (moving₁.holds.lists.holds (.inl i))
      rw [Function.update_self] at moved
      rw [Function.update_idem, Function.update_idem] at moving'
      refine ⟨t', l'', cells', M₁'', M₂'', ?_, numBuckets'.trans numBuckets, numItems'.trans numItems, moving'⟩
      rw [HashTable.moveItems, bucket.isEmpty, here, done]
      change (put getKey hash fuel { t with heap := h' } x >>= _) = _
      rw [stored]
      exact moved

/-- The outer loop empties the old buckets one after the other. -/
theorem Moving.moveAll (moving : Moving getKey hash m t old oldCells cells M₁ M₂ M T) (enough : T < fuel) (n : ℕ) (within : n ≤ m) :
    ∃ t' old' oldCells' cells' M₁' M₂',
      (List.range n).foldlM (fun t i => HashTable.moveItems getKey hash fuel fuel (old i) t) t = .ok t' ∧
      t'.numBuckets = t.numBuckets ∧ t'.numItems = t.numItems ∧ (∀ i < n, oldCells' i = []) ∧
      (∀ i, n ≤ i → old' i = old i ∧ oldCells' i = oldCells i) ∧
      Moving getKey hash m t' old' oldCells' cells' M₁' M₂' M T := by
  induction n with
  | zero => exact ⟨t, old, oldCells, cells, M₁, M₂, rfl, rfl, rfl, fun i hi => absurd hi (Nat.not_lt_zero i), fun _ _ => ⟨rfl, rfl⟩, moving⟩
  | succ n ih =>
    obtain ⟨t₁, old₁, oldCells₁, cells₁, M₁', M₂', moved, numBuckets, numItems, emptied, kept, moving₁⟩ := ih (Nat.le_of_succ_le within)
    have short : (oldCells₁ n).length < fuel := by
      have le := length_le_total (itemsOf oldCells₁) (Nat.lt_of_succ_le within)
      rw [itemsOf, List.length_map] at le
      have count := moving₁.count
      omega
    obtain ⟨t', l', cells', M₁'', M₂'', moved', numBuckets', numItems', moving'⟩ := moving₁.moveItems enough rfl short
    rw [(kept n le_rfl).1] at moved'
    refine ⟨t', _, _, cells', M₁'', M₂'', ?_, numBuckets'.trans numBuckets, numItems'.trans numItems, fun i hi => ?_, fun i hi => ?_, moving'⟩
    · rw [List.range_succ, List.foldlM_append, moved]
      change (HashTable.moveItems getKey hash fuel fuel (old n) t₁ >>= _) = _
      rw [moved']
      rfl
    · rcases eq_or_ne i n with rfl | other
      · exact Function.update_self ..
      · rw [Function.update_of_ne other]
        exact emptied i (by omega)
    · rw [Function.update_of_ne (by omega), Function.update_of_ne (by omega)]
      exact kept i (Nat.le_of_succ_le hi)

/-! ## Checks -/

omit [DecidableEq κ] [DecidableEq α] in
/-- Every item hashes to its bucket. -/
theorem hashedFrom_ok {p : Ptr} {own : List (ℕ × α)} (segment : Segment t.heap p own none) (pos : 0 < t.numBuckets)
    (placed : ∀ c ∈ own, hash (getKey c.2) % t.numBuckets = i) (enough : own.length ≤ fuel) :
    t.hashedFrom getKey hash i fuel p = .ok () := by
  induction own generalizing p fuel with
  | nil =>
    obtain rfl : p = none := segment
    cases fuel <;> rfl
  | cons c own ih =>
    obtain ⟨rfl, n, here, rest⟩ := segment
    obtain ⟨this, others⟩ := List.forall_mem_cons.1 placed
    cases fuel with
    | zero => exact absurd enough (by simp)
    | succ fuel =>
      rw [hashedFrom, Heap.read_some here]
      change (t.hashValue hash (getKey c.2) >>= _) = _
      rw [hashValue_ok pos, this]
      change (assert (decide (i = i)) >>= _) = _
      rw [decide_eq_true rfl]
      exact ih rest others (by simpa using enough)

omit [DecidableEq κ] [DecidableEq α] in
/-- **The check of a table** passes if the items were counted. -/
theorem Holds.sanityCheck (holds : Holds getKey hash t old oldCells cells M) (count : t.numItems = total t.numBuckets (itemsOf cells))
    (enough : ∀ i, (cells i).length ≤ fuel) : t.sanityCheck getKey hash fuel = .ok () := by
  have rounds (n : ℕ) : (List.range n).foldlM (t.checkBucket getKey hash fuel) 0 = .ok (total n (itemsOf cells) : ℤ) := by
    induction n with
    | zero => rfl
    | succ n ih =>
      have list := holds.bucket n
      have placed : ∀ c ∈ cells n, hash (getKey c.2) % t.numBuckets = n :=
        fun c mem => holds.spread.placed (x := c.2) (List.mem_map_of_mem mem)
      rw [List.range_succ, List.foldlM_append, ih]
      change (t.checkBucket getKey hash fuel _ n >>= _) = _
      rw [checkBucket, sanityCheck_ok list (enough n)]
      change ((t.hashedFrom getKey hash n fuel (t.buckets n).first >>= _) >>= _) = _
      have more : total (n + 1) (itemsOf cells) = total n (itemsOf cells) + (cells n).length := by
        rw [total, Finset.sum_range_succ, ← total, itemsOf, List.length_map]
      rw [hashedFrom_ok list.segment holds.pos placed (enough n), list.numInList, more, Int.natCast_add]
      rfl
  rw [HashTable.sanityCheck, rounds, count]
  change assert (decide (_ = _)) = _
  rw [decide_eq_true rfl]
  rfl

/-! ## Calls -/

/-- A table between calls, with the items of `M`. -/
structure Sound (getKey : α → κ) (hash : κ → ℕ) (t : HashTable α) (cells : ℕ → List (ℕ × α)) (M : κ → Option α) : Prop where
  lists : Lists.Hold ⟨t.heap, t.buckets⟩ cells
  spread : Spread getKey (fun k => hash k % t.numBuckets) (itemsOf cells) M
  count : t.numItems = total t.numBuckets (itemsOf cells)
  load : t.numItems ≤ resizeRatio * t.numBuckets
  size : ∃ k, t.numBuckets = initialBuckets * increaseSizeBy ^ k

namespace Sound

omit [DecidableEq κ] [DecidableEq α] in
theorem pos (sound : Sound getKey hash t cells M) : 0 < t.numBuckets := by
  obtain ⟨k, size⟩ := sound.size
  rw [size]
  exact Nat.mul_pos (by decide) (Nat.pow_pos (by decide))

omit [DecidableEq κ] [DecidableEq α] in
theorem holds (sound : Sound getKey hash t cells M) : Holds getKey hash t (fun _ => ⟨none, none, 0⟩) (fun _ => []) cells M :=
  ⟨sound.lists.more.swap, sound.pos, sound.spread⟩

omit [DecidableEq κ] [DecidableEq α] in
theorem short (sound : Sound getKey hash t cells M) (enough : t.numItems < fuel) (i : ℕ) : (cells i).length < fuel := by
  have le := sound.spread.length_le (fun k => Nat.mod_lt _ sound.pos) i
  have count := sound.count
  rw [itemsOf, List.length_map] at le
  omega

omit [DecidableEq κ] [DecidableEq α] in
theorem check (sound : Sound getKey hash t cells M) (enough : t.numItems < fuel) : t.sanityCheck getKey hash fuel = .ok () :=
  sound.holds.sanityCheck sound.count fun i => (sound.short enough i).le

/-- **`ReHash`** moves the items. -/
theorem reHash (sound : Sound getKey hash t cells M) (enough : t.numItems < fuel) : ∃ t' cells', t.reHash getKey hash fuel = .ok t' ∧
    t'.numBuckets = t.numBuckets * increaseSizeBy ∧ t'.numItems = t.numItems ∧ Sound getKey hash t' cells' M := by
  have pos := sound.pos
  have moving : Moving getKey hash t.numBuckets (t.initBuckets (t.numBuckets * increaseSizeBy)) t.buckets cells (fun _ => [])
      M (fun _ => none) M (total t.numBuckets (itemsOf cells)) := by
    refine ⟨⟨sound.lists.more, Nat.mul_pos pos (by decide), .empty⟩, pos, sound.spread, fun k => ?_, fun _ => .inr rfl, ?_⟩
    · rw [Option.or_none]
    · have none : total (t.initBuckets (t.numBuckets * increaseSizeBy)).numBuckets (itemsOf fun _ => ([] : List (ℕ × α))) = 0 :=
        total_eq_zero.2 fun _ _ => rfl
      rw [none, Nat.add_zero]
  have room : total t.numBuckets (itemsOf cells) < fuel := by
    have count := sound.count
    omega
  obtain ⟨t', old', oldCells', cells', M₁, M₂, moved, numBuckets, numItems, emptied, -, moving'⟩ := moving.moveAll room t.numBuckets le_rfl
  have left (k : κ) : M₁ k = none :=
    moving'.spreadOld.eq_none (fun k => by rw [itemsOf, emptied _ (Nat.mod_lt _ pos)]; rfl) k
  obtain rfl : M₂ = M := funext fun k => by rw [moving'.union, left, Option.none_or]
  have gone : total t.numBuckets (itemsOf oldCells') = 0 := total_eq_zero.2 fun i hi => by rw [itemsOf, emptied i hi]; rfl
  have count : t'.numItems = total t'.numBuckets (itemsOf cells') := by
    have all := moving'.count
    rw [gone, Nat.zero_add] at all
    rw [numItems, all]
    exact sound.count
  have sound' : Sound getKey hash t' cells' M₂ := by
    refine ⟨moving'.holds.lists.right, moving'.holds.spread, count, ?_, ?_⟩
    · rw [numItems, numBuckets]
      have load := sound.load
      change t.numItems ≤ 3 * (t.numBuckets * 4 : ℕ)
      change t.numItems ≤ 3 * (t.numBuckets : ℤ) at load
      omega
    · obtain ⟨k, size⟩ := sound.size
      refine ⟨k + 1, ?_⟩
      rw [numBuckets]
      change t.numBuckets * increaseSizeBy = _
      rw [size, Nat.pow_succ, Nat.mul_assoc]
  refine ⟨t', cells', ?_, numBuckets, numItems, sound'⟩
  rw [HashTable.reHash, sound.check enough]
  change ((List.range t.numBuckets).foldlM (fun t₁ i => HashTable.moveItems getKey hash fuel fuel (t.buckets i) t₁) _ >>= _) = _
  rw [moved]
  change (t'.sanityCheck getKey hash fuel >>= _) = _
  rw [sound'.check (by rw [numItems]; exact enough)]
  rfl

/-- The table grows when it is too full. -/
theorem grow (sound : Sound getKey hash t cells M) (enough : t.numItems < fuel) : ∃ t' cells', t.grow getKey hash fuel = .ok t' ∧
    t'.numItems = t.numItems ∧ t'.numItems < resizeRatio * t'.numBuckets ∧ Sound getKey hash t' cells' M := by
  have pos : (0 : ℤ) < t.numBuckets := by exact_mod_cast sound.pos
  have nonneg : 0 ≤ t.numItems := by
    rw [sound.count]
    exact Int.natCast_nonneg _
  have full : t.numItems.tdiv t.numBuckets ≥ resizeRatio ↔ (resizeRatio : ℤ) * t.numBuckets ≤ t.numItems := by
    rw [Int.tdiv_eq_ediv_of_nonneg nonneg]
    exact Int.le_ediv_iff_mul_le pos
  by_cases grows : t.numItems.tdiv t.numBuckets ≥ resizeRatio
  · obtain ⟨t', cells', done, numBuckets, numItems, sound'⟩ := sound.reHash enough
    refine ⟨t', cells', ?_, numItems, ?_, sound'⟩
    · rw [HashTable.grow, if_pos grows]
      exact done
    · have load := sound.load
      rw [numItems, numBuckets]
      change t.numItems < 3 * (t.numBuckets * 4 : ℕ)
      change t.numItems ≤ 3 * (t.numBuckets : ℤ) at load
      omega
  · exact ⟨t, cells, if_neg grows, rfl, not_le.1 fun more => grows (full.2 more), sound⟩

/-- **`Insert`** of an item whose key is not in the table. -/
theorem insert (sound : Sound getKey hash t cells M) (absent : M (getKey item) = none) (enough : t.numItems + 1 < fuel) :
    ∃ t' cells', t.insert getKey hash fuel item = .ok t' ∧
      Sound getKey hash t' cells' (Function.update M (getKey item) (some item)) := by
  have below : t.numItems < fuel := by omega
  obtain ⟨t₁, cells₁, grown, numItems₁, room, sound₁⟩ := sound.grow below
  rw [← numItems₁] at below
  obtain ⟨t₂, cells₂, stored, holds, numBuckets, numItems, items⟩ := sound₁.holds.put absent (sound₁.short below)
  have count : t₂.numItems + 1 = total t₂.numBuckets (itemsOf cells₂) := by
    have more := total_update (itemsOf cells₁) (Nat.mod_lt (hash (getKey item)) sound₁.pos)
      (itemsOf cells₁ (hash (getKey item) % t₁.numBuckets) ++ [item])
    have before := sound₁.count
    rw [List.length_append, List.length_singleton] at more
    rw [items, numItems, numBuckets]
    omega
  have sound' : Sound getKey hash { t₂ with numItems := t₂.numItems + 1 } cells₂ (Function.update M (getKey item) (some item)) := by
    refine ⟨holds.lists.right, holds.spread, count, ?_, ?_⟩
    · change t₂.numItems + 1 ≤ resizeRatio * t₂.numBuckets
      rw [numItems, numBuckets]
      exact room
    · obtain ⟨k, size⟩ := sound₁.size
      exact ⟨k, numBuckets.trans size⟩
  refine ⟨_, cells₂, ?_, sound'⟩
  rw [numItems₁] at below
  rw [HashTable.insert, sound.holds.isInTable fun i => (sound.short below i).le, absent]
  change (t.grow getKey hash fuel >>= _) = _
  rw [grown]
  change (t₁.put getKey hash fuel item >>= _) = _
  rw [stored]
  change (HashTable.isInTable getKey hash fuel { t₂ with numItems := t₂.numItems + 1 } (getKey item) >>= _) = _
  have small : t₂.numItems + 1 < fuel := by omega
  rw [sound'.holds.isInTable fun i => (sound'.short small i).le, Function.update_self]
  rfl

theorem insert_present (sound : Sound getKey hash t cells M) (present : M (getKey item) ≠ none) (enough : t.numItems < fuel) :
    t.insert getKey hash fuel item = .error .assertion := by
  obtain ⟨x, e⟩ := Option.ne_none_iff_exists'.1 present
  rw [HashTable.insert, sound.holds.isInTable fun i => (sound.short enough i).le, e]
  rfl

/-- **`Remove`** of the item of a key. -/
theorem remove (sound : Sound getKey hash t cells M) (present : M key = some x) (enough : t.numItems < fuel) :
    ∃ t' cells', t.remove getKey hash fuel key = .ok (x, t') ∧ Sound getKey hash t' cells' (Function.update M key none) := by
  have spread := sound.spread.remove present
  have mem := (sound.spread.found present).2
  have small := Nat.mod_lt (hash key) sound.pos
  have bucket : (t.buckets (hash key % t.numBuckets)).Holds t.heap (cells (hash key % t.numBuckets)) := sound.lists.holds _
  obtain ⟨h', l', done, -, dropped⟩ := remove_ok bucket (sound.lists.distinct _) mem (sound.short enough _).le
  have items := itemsOf_update cells (hash key % t.numBuckets) (without x (cells (hash key % t.numBuckets)))
  rw [map_without] at items
  have lists := sound.lists.update dropped.holds dropped.touches
    (by rw [map_without]; exact (sound.lists.distinct (hash key % t.numBuckets)).erase x)
  rw [Lists.set] at lists
  have count : t.numItems - 1 =
      total t.numBuckets (itemsOf (Function.update cells (hash key % t.numBuckets) (without x (cells (hash key % t.numBuckets))))) := by
    have fewer := total_update (itemsOf cells) small ((itemsOf cells (hash key % t.numBuckets)).erase x)
    have before := sound.count
    have length := List.length_erase_of_mem mem
    have pos := List.length_pos_of_mem mem
    rw [items]
    change _ = ((total t.numBuckets (Function.update (itemsOf cells) (hash key % t.numBuckets)
      ((itemsOf cells (hash key % t.numBuckets)).erase x)) : ℕ) : ℤ)
    omega
  have sound' : Sound getKey hash ⟨h', Function.update t.buckets (hash key % t.numBuckets) l', t.numBuckets, t.numItems - 1⟩
      (Function.update cells (hash key % t.numBuckets) (without x (cells (hash key % t.numBuckets)))) (Function.update M key none) := by
    refine ⟨lists, ?_, count, ?_, sound.size⟩
    · rw [items]
      exact spread
    · have load := sound.load
      change t.numItems - 1 ≤ resizeRatio * t.numBuckets
      omega
  refine ⟨_, _, ?_, sound'⟩
  have found : t.findInBucket getKey fuel (hash key % t.numBuckets) key = .ok (some x) := by
    rw [findInBucket, findFrom_ok bucket.segment (sound.short enough _).le, ← present, ← sound.spread.find key]
    rfl
  rw [HashTable.remove, hashValue_ok sound.pos]
  change (t.findInBucket getKey fuel (hash key % t.numBuckets) key >>= _) = _
  rw [found]
  change ((t.buckets (hash key % t.numBuckets)).remove fuel t.heap x >>= _) = _
  rw [done]
  change (HashTable.isInTable getKey hash fuel ⟨h', Function.update t.buckets (hash key % t.numBuckets) l', t.numBuckets,
    t.numItems - 1⟩ key >>= _) = _
  have fewer : t.numItems - 1 < fuel := by omega
  rw [sound'.holds.isInTable fun i => (sound'.short fewer i).le, Function.update_self]
  rfl

theorem remove_absent (sound : Sound getKey hash t cells M) (absent : M key = none) (enough : t.numItems < fuel) :
    t.remove getKey hash fuel key = .error .assertion := by
  have bucket : (t.buckets (hash key % t.numBuckets)).Holds t.heap (cells (hash key % t.numBuckets)) := sound.lists.holds _
  have found : t.findInBucket getKey fuel (hash key % t.numBuckets) key = .ok none := by
    rw [findInBucket, findFrom_ok bucket.segment (sound.short enough _).le, ← absent, ← sound.spread.find key]
    rfl
  rw [HashTable.remove, hashValue_ok sound.pos]
  change (t.findInBucket getKey fuel (hash key % t.numBuckets) key >>= _) = _
  rw [found]
  rfl

omit [DecidableEq κ] [DecidableEq α] in
/-- A new table. -/
theorem new (heap : Heap α) : Sound getKey hash (new heap) (fun _ => []) fun _ => none where
  lists := ⟨fun _ => ⟨rfl, rfl, rfl, List.nodup_nil, fun _ mem => by cases mem⟩, fun _ _ _ => List.disjoint_nil_left _, fun _ => List.nodup_nil⟩
  spread := .empty
  count := congrArg Nat.cast (total_eq_zero.2 fun _ _ => rfl : total initialBuckets (itemsOf fun _ => ([] : List (ℕ × α))) = 0).symm
  load := by
    change (0 : ℤ) ≤ 3 * (4 : ℕ)
    decide
  size := ⟨0, rfl⟩

end Sound

end HashTable

end Nachos.Mp3
