import Mathlib.Data.List.Count
import Mathlib.Data.List.Nodup
import Mathlib.Data.List.Sort
import Mathlib.Tactic.Common

/-!
# Queues that change under an iterator

Insertion into a sorted list some of whose members are exempt from the order, and a walk
whose body may take the visited item out of the list and insert it again. Such a walk can
meet an item twice. `inversions` bounds how often: an item inserted behind the iterator
leaves one pair less out of order.
-/

namespace Queue

section Sorted

variable {α : Type} {le le' : α → α → Prop} [DecidableRel le] [DecidableRel le'] {exempt : α → Prop} {x : α}

/-- Where an item is inserted: behind items it does not precede, before the first it precedes. -/
theorem orderedInsert_split (le : α → α → Prop) [DecidableRel le] (x : α) : ∀ l : List α, ∃ s t, l = s ++ t ∧ l.orderedInsert le x = s ++ x :: t ∧
    ∀ z ∈ s, ¬ le x z
  | [] => ⟨[], [], rfl, rfl, fun _ h => (List.not_mem_nil h).elim⟩
  | y :: l => by
    by_cases h : le x y
    · exact ⟨[], y :: l, rfl, List.orderedInsert_cons_of_le le l h, fun _ h => (List.not_mem_nil h).elim⟩
    · obtain ⟨s, t, rfl, eq, behind⟩ := orderedInsert_split le x l
      refine ⟨y :: s, t, rfl, ?_, List.forall_mem_cons.2 ⟨h, behind⟩⟩
      rw [List.orderedInsert_of_not_le le _ h, eq]
      rfl

/-- Insertion keeps a list sorted up to its exempt members. -/
theorem pairwise_orderedInsert [Std.Total le] [IsTrans α le] (x : α) :
    ∀ {l : List α}, l.Pairwise (fun a b => exempt b ∨ le a b) →
      (l.orderedInsert le x).Pairwise fun a b => exempt b ∨ le a b
  | [], _ => List.pairwise_singleton _ x
  | y :: l, h => by
    obtain ⟨hy, hl⟩ := List.pairwise_cons.1 h
    by_cases hxy : le x y
    · rw [List.orderedInsert_cons_of_le le l hxy]
      refine List.pairwise_cons.2 ⟨List.forall_mem_cons.2 ⟨.inr hxy, fun z hz => ?_⟩, h⟩
      exact (hy z hz).imp_right (trans_of le hxy)
    · rw [List.orderedInsert_of_not_le le l hxy]
      refine List.pairwise_cons.2 ⟨fun z hz => ?_, pairwise_orderedInsert x hl⟩
      rcases (List.mem_orderedInsert le).1 hz with rfl | hz
      · exact .inr ((Std.Total.total z y).resolve_left hxy)
      · exact hy z hz

/-- Insertion before the first item with a bigger key keeps a list sorted by the key. -/
theorem pairwise_orderedInsert_of_key {β : Type} [LinearOrder β] {key : α → β} {lt : α → α → Prop} [DecidableRel lt]
    (lt_iff : ∀ a b, lt a b ↔ key a < key b) (x : α) {l : List α} (sorted : l.Pairwise fun a b => key a ≤ key b) :
    (l.orderedInsert lt x).Pairwise fun a b => key a ≤ key b := by
  induction l with
  | nil => exact List.pairwise_singleton _ x
  | cons y l ih =>
    obtain ⟨first, others⟩ := List.pairwise_cons.1 sorted
    by_cases before : lt x y
    · have less := ((lt_iff x y).1 before).le
      rw [List.orderedInsert_cons_of_le lt l before]
      exact List.pairwise_cons.2 ⟨List.forall_mem_cons.2 ⟨less, fun z mem => less.trans (first z mem)⟩, sorted⟩
    · rw [List.orderedInsert_of_not_le lt l before]
      refine List.pairwise_cons.2 ⟨fun z mem => ?_, ih others⟩
      obtain rfl | mem := (List.mem_orderedInsert lt).1 mem
      · exact not_lt.1 fun less => before ((lt_iff z y).2 less)
      · exact first z mem

/-- The pairs that stand in the wrong order. -/
def inversions (le : α → α → Prop) [DecidableRel le] : List α → Nat
  | [] => 0
  | x :: l => l.countP (fun z => ¬ le x z) + inversions le l

theorem inversions_le (le : α → α → Prop) [DecidableRel le] (l : List α) : inversions le l ≤ l.length * l.length := by
  induction l with
  | nil => simp [inversions]
  | cons x l ih =>
    have count : l.countP (fun z => ¬ le x z) ≤ l.length := List.countP_le_length
    rw [inversions, List.length_cons]
    calc _ ≤ l.length + l.length * l.length := by omega
      _ ≤ (l.length + 1) * (l.length + 1) := by rw [Nat.add_mul, Nat.mul_add]; omega

theorem inversions_congr {l : List α} (h : ∀ a ∈ l, ∀ b ∈ l, (le a b ↔ le' a b)) :
    inversions le l = inversions le' l := by
  induction l with
  | nil => rfl
  | cons x l ih =>
    have count : l.countP (fun z => ¬ le x z) = l.countP (fun z => ¬ le' x z) :=
      List.countP_congr fun z hz => by simp [h x List.mem_cons_self z (List.mem_cons_of_mem _ hz)]
    rw [inversions, inversions, count, ih fun a ha b hb => h a (List.mem_cons_of_mem _ ha) b (List.mem_cons_of_mem _ hb)]

theorem inversions_insert (x : α) (s t : List α) : inversions le (s ++ x :: t) =
    inversions le (s ++ t) + t.countP (fun z => ¬ le x z) + s.countP (fun z => ¬ le z x) := by
  induction s with
  | nil => simp [inversions, Nat.add_comm]
  | cons a s ih =>
    rw [List.cons_append, inversions, ih, List.cons_append, inversions, List.countP_append, List.countP_append,
      List.countP_cons, List.countP_cons]
    omega

/-- An item that moves back to where it belongs leaves fewer pairs out of order, also when
its own key has improved. -/
theorem inversions_moved [Std.Total le'] {s t : List α}
    (same : ∀ a ∈ s ++ t, ∀ b ∈ s ++ t, (le a b ↔ le' a b)) (better : ∀ z ∈ s ++ t, le x z → le' x z)
    (behind : ∀ z ∈ s, ¬ le' x z) :
    inversions le' (s ++ x :: t) + s.length ≤ inversions le (x :: (s ++ t)) := by
  have before : s.countP (fun z => ¬ le' z x) = 0 := by
    rw [List.countP_eq_zero]
    intro z hz
    simpa using (Std.Total.total z x).resolve_right (behind z hz)
  have passed : s.countP (fun z => ¬ le x z) = s.length := by
    rw [List.countP_eq_length]
    intro z hz
    simpa using fun h => behind z hz (better z (List.mem_append_left t hz) h)
  have after : t.countP (fun z => ¬ le' x z) ≤ t.countP (fun z => ¬ le x z) :=
    List.countP_mono_left fun z hz h => by
      simp only [decide_not, Bool.not_eq_true', decide_eq_false_iff_not] at h ⊢
      exact fun hle => h (better z (List.mem_append_right s hz) hle)
  rw [inversions_insert, before, inversions, List.countP_append, passed, inversions_congr same]
  omega

/-- The effort left to a walk that still has `l` before it. -/
def effort (le : α → α → Prop) [DecidableRel le] (l : List α) : Nat := l.length + inversions le l

theorem effort_lt (le : α → α → Prop) [DecidableRel le] (l : List α) : effort le l < (l.length + 1) * (l.length + 1) := by
  have bound := inversions_le le l
  rw [effort, Nat.add_mul, Nat.mul_add]
  omega

/-- Going on from an item that stays behind the iterator, or left the list. -/
theorem effort_passed {l : List α} (same : ∀ a ∈ l, ∀ b ∈ l, (le a b ↔ le' a b)) : effort le' l < effort le (x :: l) := by
  rw [effort, effort, inversions, inversions_congr same, List.length_cons]
  omega

/-- Going on from an item that was inserted again: what is left of the list holds the same
next item and every item that was to come, and takes less effort. -/
theorem effort_inserted [Std.Total le'] (p : List α) {s : List α}
    (same : ∀ a ∈ s, ∀ b ∈ s, (le a b ↔ le' a b)) (better : ∀ z ∈ s, le x z → le' x z) :
    ∃ q r, (p ++ s).orderedInsert le' x = q ++ r ∧ r.head? = s.head? ∧ s ⊆ r ∧ effort le' r < effort le (x :: s) := by
  obtain ⟨a, b, split, eq, behind⟩ := orderedInsert_split le' x (p ++ s)
  have stays : ∀ q, a ++ x :: b = q ++ s → ∃ q r, (p ++ s).orderedInsert le' x = q ++ r ∧ r.head? = s.head? ∧ s ⊆ r ∧
      effort le' r < effort le (x :: s) :=
    fun q h => ⟨q, s, eq.trans h, rfl, List.Subset.refl s, effort_passed same⟩
  rcases List.append_eq_append_iff.1 split with ⟨c, rfl, rfl⟩ | ⟨c, rfl, rfl⟩
  · cases c with
    | nil => exact stays (p ++ [x]) (by simp)
    | cons y c =>
      refine ⟨p, y :: c ++ x :: b, by rw [eq, List.append_assoc], rfl, ?_, ?_⟩
      · exact fun z hz => List.mem_append.2 ((List.mem_append.1 hz).imp_right (List.mem_cons_of_mem x))
      · have moved := inversions_moved (s := y :: c) same better fun z hz =>
          behind z (List.mem_append_right p hz)
        rw [effort, effort]
        simp only [List.length_append, List.length_cons] at moved ⊢
        omega
  · exact stays (a ++ x :: c) (by simp)

end Sorted

section Walk

variable {σ ε α : Type} [DecidableEq α]

/-- The items behind `x`. -/
def behind (x : α) (l : List α) : List α := (l.dropWhile fun y => y ≠ x).tail

theorem behind_append {x : α} {p s : List α} (h : x ∉ p) : behind x (p ++ x :: s) = s := by
  induction p with
  | nil => simp [behind]
  | cons y p ih =>
    rw [List.mem_cons, not_or] at h
    obtain ⟨hy, hp⟩ := h
    rw [List.cons_append, behind, List.dropWhile_cons_of_pos (by simpa using Ne.symm hy)]
    exact ih hp

/-- Runs `body` on the item under the iterator and goes on to the item that stood behind it
before the body ran, for at most `fuel` items. -/
def walk (items : σ → List α) (body : α → σ → Except ε σ) (stuck : ε) : Nat → Option α → σ → Except ε σ
  | _, none, s => pure s
  | 0, some _, _ => throw stuck
  | fuel + 1, some x, s => do
    let next := (behind x (items s)).head?
    walk items body stuck fuel next (← body x s)

/-- **The walk rule.** `Inv` holds between two items, `Done x` from the first time the body
has run on `x`, and `cost` decreases. -/
theorem walk_ok {items : σ → List α} {body : α → σ → Except ε σ} {stuck : ε} (Inv : σ → Prop) (Done : α → σ → Prop)
    (cost : σ → List α → Nat) (nodup : ∀ {s}, Inv s → (items s).Nodup)
    (step : ∀ {s p x r}, Inv s → items s = p ++ x :: r → ∃ s', body x s = .ok s' ∧ Inv s' ∧ Done x s' ∧
      (∀ y, Done y s → Done y s') ∧
      ∃ q r', items s' = q ++ r' ∧ r'.head? = r.head? ∧ r ⊆ r' ∧ cost s' r' < cost s (x :: r)) :
    ∀ {fuel : Nat} {s : σ} {p r : List α}, Inv s → items s = p ++ r → cost s r < fuel →
      ∃ s', walk items body stuck fuel r.head? s = .ok s' ∧ Inv s' ∧ (∀ x ∈ r, Done x s') ∧ ∀ y, Done y s → Done y s'
  | fuel, s, p, [], inv, _, _ => ⟨s, by cases fuel <;> rfl, inv, fun _ h => (List.not_mem_nil h).elim, fun _ h => h⟩
  | fuel + 1, s, p, x :: r, inv, at_x, enough => by
    obtain ⟨s', run, inv', done, keep, q, r', at_next, head, rest, less⟩ := step inv at_x
    have enough' : cost s' r' < fuel := by omega
    obtain ⟨s'', rest_run, inv'', visited, kept⟩ := walk_ok Inv Done cost nodup step inv' at_next enough'
    have distinct := nodup inv
    rw [at_x, List.nodup_append] at distinct
    have next : behind x (items s) = r := by
      rw [at_x]
      exact behind_append fun h => distinct.2.2 x h x List.mem_cons_self rfl
    refine ⟨s'', ?_, inv'', ?_, fun y h => kept y (keep y h)⟩
    · rw [List.head?_cons, walk, next, run, ← head]
      exact rest_run
    · exact List.forall_mem_cons.2 ⟨kept x done, fun y hy => visited y (rest hy)⟩

/-- A walk whose body leaves the list as it is runs once over the rest of it. `Inv` holds of what is
still to come. -/
theorem walk_kept {items : σ → List α} {body : α → σ → Except ε σ} {stuck : ε} {f : σ → α → σ} {whole : List α}
    (Inv : List α → σ → Prop) (nodup : whole.Nodup) (kept : ∀ {r s}, Inv r s → items s = whole)
    (step : ∀ {x r s}, Inv (x :: r) s → body x s = .ok (f s x) ∧ Inv r (f s x)) :
    ∀ {fuel : Nat} {s : σ} {p r : List α}, Inv r s → whole = p ++ r → r.length ≤ fuel →
      walk items body stuck fuel r.head? s = .ok (r.foldl f s)
  | fuel, s, p, [], _, _, _ => by cases fuel <;> rfl
  | fuel + 1, s, p, x :: r, inv, at_x, enough => by
    obtain ⟨run, inv'⟩ := step inv
    have distinct := nodup
    rw [at_x, List.nodup_append] at distinct
    have next : behind x (items s) = r := by
      rw [kept inv, at_x]
      exact behind_append fun h => distinct.2.2 x h x List.mem_cons_self rfl
    rw [List.head?_cons, walk, next, run]
    exact walk_kept Inv nodup kept step (p := p ++ [x]) inv' (by rw [at_x, List.append_assoc, List.singleton_append])
      (Nat.le_of_succ_le_succ enough)

end Walk

end Queue
