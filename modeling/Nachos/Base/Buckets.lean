import Mathlib.Algebra.Order.BigOperators.Group.Finset
import Mathlib.Data.List.Nodup
import Mathlib.Logic.Function.Basic
import Mathlib.Tactic.Common

/-!
# Chained buckets

Items have keys, and each is in the bucket of its key. If no key occurs twice, the buckets are a partial
map from keys to items, whatever the function is that says which bucket a key has.
-/

namespace Buckets

variable {κ α : Type} [DecidableEq κ] {key : α → κ} {bucket : κ → ℕ} {items : ℕ → List α} {M : κ → Option α} {k : κ} {x : α}
  {i b n : ℕ} {new : List α}

/-- The buckets hold the items of the map `M`. -/
structure Spread (key : α → κ) (bucket : κ → ℕ) (items : ℕ → List α) (M : κ → Option α) : Prop where
  placed : ∀ {i x}, x ∈ items i → bucket (key x) = i
  nodup : ∀ i, (items i).Nodup
  mem : ∀ {i x}, x ∈ items i → M (key x) = some x
  found : ∀ {k x}, M k = some x → key x = k ∧ x ∈ items (bucket k)

namespace Spread

omit [DecidableEq κ] in
theorem empty : Spread key bucket (fun _ => []) fun _ => none where
  placed mem := by cases mem
  nodup _ := List.nodup_nil
  mem mem := by cases mem
  found e := by cases e

omit [DecidableEq κ] in
/-- The items of a key. -/
theorem eq_of_key (h : Spread key bucket items M) {y : α} {j : ℕ} (one : x ∈ items i) (two : y ∈ items j) (same : key x = key y) :
    x = y := by
  have first := h.mem one
  rw [same, h.mem two] at first
  exact (Option.some.inj first).symm

/-- **Looking for a key** in its bucket. -/
theorem find (h : Spread key bucket items M) (k : κ) : (items (bucket k)).find? (fun x => k = key x) = M k := by
  cases there : M k with
  | some x =>
    obtain ⟨rfl, mem⟩ := h.found there
    cases looked : (items (bucket (key x))).find? (fun y => key x = key y) with
    | none => exact absurd (by simp) (List.find?_eq_none.1 looked x mem)
    | some y =>
      have same : key x = key y := by simpa using List.find?_some looked
      rw [h.eq_of_key mem (List.mem_of_find?_eq_some looked) same]
  | none =>
    refine List.find?_eq_none.2 fun x mem same => ?_
    obtain rfl : k = key x := of_decide_eq_true same
    rw [h.mem mem] at there
    cases there

/-- A new item goes to the end of the bucket of its key. -/
theorem insert (h : Spread key bucket items M) (absent : M (key x) = none) :
    Spread key bucket (Function.update items (bucket (key x)) (items (bucket (key x)) ++ [x])) (Function.update M (key x) (some x)) := by
  have cases_mem : ∀ {i y}, y ∈ Function.update items (bucket (key x)) (items (bucket (key x)) ++ [x]) i →
      y ∈ items i ∨ y = x ∧ i = bucket (key x) := by
    intro i y mem
    rcases eq_or_ne i (bucket (key x)) with rfl | other
    · rw [Function.update_self, List.mem_append, List.mem_singleton] at mem
      exact mem.imp_right fun same => ⟨same, rfl⟩
    · rw [Function.update_of_ne other] at mem
      exact .inl mem
  have ne_key : ∀ {i y}, y ∈ items i → key y ≠ key x := by
    intro i y mem same
    rw [← same, h.mem mem] at absent
    cases absent
  refine ⟨fun mem => ?_, fun i => ?_, fun mem => ?_, fun {k y} e => ?_⟩
  · obtain old | ⟨rfl, rfl⟩ := cases_mem mem
    · exact h.placed old
    · rfl
  · rcases eq_or_ne i (bucket (key x)) with rfl | other
    · rw [Function.update_self, List.nodup_append]
      refine ⟨h.nodup _, List.nodup_singleton x, fun y mem z one => ?_⟩
      rw [List.mem_singleton.1 one]
      exact fun same => ne_key mem (congrArg key same)
    · rw [Function.update_of_ne other]
      exact h.nodup i
  · obtain old | ⟨rfl, rfl⟩ := cases_mem mem
    · rw [Function.update_of_ne (ne_key old)]
      exact h.mem old
    · exact Function.update_self ..
  · rcases eq_or_ne k (key x) with rfl | other
    · rw [Function.update_self] at e
      obtain rfl := Option.some.inj e
      rw [Function.update_self]
      exact ⟨rfl, List.mem_append_right _ (List.mem_singleton_self x)⟩
    · rw [Function.update_of_ne other] at e
      obtain ⟨rfl, mem⟩ := h.found e
      refine ⟨rfl, ?_⟩
      by_cases same : bucket (key y) = bucket (key x)
      · rw [same, Function.update_self]
        exact List.mem_append_left _ (same ▸ mem)
      · rw [Function.update_of_ne same]
        exact mem

/-- The item of a key is taken away. -/
theorem remove [DecidableEq α] (h : Spread key bucket items M) (present : M k = some x) :
    Spread key bucket (Function.update items (bucket k) ((items (bucket k)).erase x)) (Function.update M k none) := by
  obtain ⟨rfl, here⟩ := h.found present
  have old : ∀ {i y}, y ∈ Function.update items (bucket (key x)) ((items (bucket (key x))).erase x) i → y ∈ items i ∧ y ≠ x := by
    intro i y mem
    rcases eq_or_ne i (bucket (key x)) with rfl | other
    · rw [Function.update_self] at mem
      exact ⟨List.mem_of_mem_erase mem, fun same => (h.nodup _).not_mem_erase (same ▸ mem)⟩
    · rw [Function.update_of_ne other] at mem
      exact ⟨mem, fun same => other (by rw [← h.placed mem, same])⟩
  refine ⟨fun mem => h.placed (old mem).1, fun i => ?_, fun mem => ?_, fun {k y} e => ?_⟩
  · rcases eq_or_ne i (bucket (key x)) with rfl | other
    · rw [Function.update_self]
      exact (h.nodup _).erase x
    · rw [Function.update_of_ne other]
      exact h.nodup i
  · obtain ⟨was, ne⟩ := old mem
    rw [Function.update_of_ne fun same => ne (h.eq_of_key was here same)]
    exact h.mem was
  · rcases eq_or_ne k (key x) with rfl | other
    · rw [Function.update_self] at e
      cases e
    · rw [Function.update_of_ne other] at e
      obtain ⟨rfl, mem⟩ := h.found e
      refine ⟨rfl, ?_⟩
      by_cases same : bucket (key y) = bucket (key x)
      · rw [same, Function.update_self]
        exact (List.mem_erase_of_ne fun e => other (congrArg key e)).2 (same ▸ mem)
      · rw [Function.update_of_ne same]
        exact mem

omit [DecidableEq κ] in
/-- All items, the first bucket first. -/
theorem all (h : Spread key bucket items M) (bound : ∀ k, bucket k < n) :
    ((List.range n).flatMap items).Nodup ∧ ∀ x, x ∈ (List.range n).flatMap items ↔ M (key x) = some x := by
  constructor
  · refine List.nodup_flatMap.2 ⟨fun i _ => h.nodup i, List.nodup_range.imp fun {i j} ne x one two => ne ?_⟩
    rw [← h.placed one, ← h.placed two]
  · intro x
    rw [List.mem_flatMap]
    constructor
    · rintro ⟨i, -, mem⟩
      exact h.mem mem
    · intro present
      exact ⟨_, List.mem_range.2 (bound (key x)), (h.found present).2⟩

omit [DecidableEq κ] in
/-- Buckets with nothing in them. -/
theorem eq_none (h : Spread key bucket items M) (none : ∀ k, items (bucket k) = []) (k : κ) : M k = .none := by
  by_contra there
  obtain ⟨x, present⟩ := Option.ne_none_iff_exists'.1 there
  have mem := (h.found present).2
  rw [none] at mem
  cases mem

end Spread

/-! ## Counting -/

/-- The number of items in the first `n` buckets. -/
def total (n : ℕ) (items : ℕ → List α) : ℕ := ∑ i ∈ Finset.range n, (items i).length

theorem total_update (items : ℕ → List α) (hb : b < n) (new : List α) :
    total n (Function.update items b new) + (items b).length = total n items + new.length := by
  have mem := Finset.mem_range.2 hb
  rw [total, total, ← Finset.add_sum_erase _ _ mem, ← Finset.add_sum_erase _ (fun i => (items i).length) mem, Function.update_self]
  have others : ∑ i ∈ (Finset.range n).erase b, (Function.update items b new i).length =
      ∑ i ∈ (Finset.range n).erase b, (items i).length := by
    refine Finset.sum_congr rfl fun i hi => ?_
    rw [Function.update_of_ne (Finset.ne_of_mem_erase hi)]
  rw [others]
  omega

theorem length_le_total (items : ℕ → List α) (hb : b < n) : (items b).length ≤ total n items :=
  Finset.single_le_sum (f := fun i => (items i).length) (fun _ _ => Nat.zero_le _) (Finset.mem_range.2 hb)

omit [DecidableEq κ] in
/-- No bucket is longer than all together. -/
theorem Spread.length_le (h : Spread key bucket items M) (bound : ∀ k, bucket k < n) (i : ℕ) : (items i).length ≤ total n items := by
  by_cases small : i < n
  · exact length_le_total items small
  · have none : items i = [] := by
      refine List.eq_nil_iff_forall_not_mem.2 fun x mem => small ?_
      rw [← h.placed mem]
      exact bound (key x)
    rw [none]
    exact Nat.zero_le _

theorem total_eq_zero : total n items = 0 ↔ ∀ i < n, items i = [] := by
  rw [total, Finset.sum_eq_zero_iff]
  constructor
  · exact fun none i hi => List.length_eq_zero_iff.1 (none i (Finset.mem_range.2 hi))
  · intro none i hi
    rw [none i (Finset.mem_range.1 hi)]
    rfl

/-- The items of all buckets, counted. -/
theorem length_all (n : ℕ) (items : ℕ → List α) : ((List.range n).flatMap items).length = total n items := by
  induction n with
  | zero => rfl
  | succ n ih =>
    rw [List.range_succ, List.flatMap_append, List.length_append, ih, total, total, Finset.sum_range_succ, List.flatMap_singleton]

end Buckets
