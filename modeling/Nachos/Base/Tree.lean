import Mathlib.Data.List.Induction
import Mathlib.Tactic.Common

/-!
# Rooted trees of named children

A node has named children, and `follow` walks a path of names. Where no node has two
parents and the root none, a path is determined by the node it ends in, so that adding a
leaf or cutting an edge changes `follow` at the paths through it and nowhere else.
-/

namespace Tree

variable {V K : Type} {child child' : V → K → Option V} {root p w : V} {P q : List K} {k : K}

/-- The node a path leads to from `v`. -/
def follow (child : V → K → Option V) (v : V) : List K → Option V
  | [] => some v
  | k :: q => (child v k).bind fun w => follow child w q

@[simp] theorem follow_nil (child : V → K → Option V) (v : V) : follow child v [] = some v := rfl

theorem follow_append (child : V → K → Option V) : ∀ (q r : List K) (v : V),
    follow child v (q ++ r) = (follow child v q).bind fun w => follow child w r
  | [], r, v => rfl
  | k :: q, r, v => by
    rw [List.cons_append, follow, follow, Option.bind_assoc]
    exact congrArg _ (funext fun w => follow_append child q r w)

theorem follow_snoc (child : V → K → Option V) (v : V) (q : List K) (k : K) :
    follow child v (q ++ [k]) = (follow child v q).bind fun w => child w k := by
  rw [follow_append]
  congr 1
  funext w
  cases h : child w k <;> simp [follow, h]

/-- No node has two parents, and the root has none. -/
structure Rooted (child : V → K → Option V) (root : V) : Prop where
  parent : ∀ {v v' w : V} {k k' : K}, child v k = some w → child v' k' = some w → v = v' ∧ k = k'
  root : ∀ (v : V) (k : K), child v k ≠ some root

/-- **A node determines the path to it.** -/
theorem Rooted.path_unique (h : Rooted child root) {v : V} (hp : follow child root P = some v)
    (hq : follow child root q = some v) : P = q := by
  induction P using List.reverseRecOn generalizing q v with
  | nil =>
    rw [follow_nil] at hp
    cases hp
    induction q using List.reverseRecOn with
    | nil => rfl
    | append_singleton q k =>
      rw [follow_snoc] at hq
      obtain ⟨u, -, hc⟩ := Option.bind_eq_some_iff.1 hq
      exact absurd hc (h.root u k)
  | append_singleton P k ih =>
    rw [follow_snoc] at hp
    obtain ⟨u, hu, hc⟩ := Option.bind_eq_some_iff.1 hp
    induction q using List.reverseRecOn with
    | nil =>
      rw [follow_nil] at hq
      cases hq
      exact absurd hc (h.root u k)
    | append_singleton q j =>
      rw [follow_snoc] at hq
      obtain ⟨u', hu', hc'⟩ := Option.bind_eq_some_iff.1 hq
      obtain ⟨rfl, rfl⟩ := h.parent hc hc'
      rw [ih hu hu']

/-- `child'` is `child` with a new leaf `w` below `p`. -/
structure Grown (child child' : V → K → Option V) (p : V) (k : K) (w : V) : Prop where
  fresh : child p k = none
  unreached : ∀ v j, child v j ≠ some w
  added : child' p k = some w
  leaf : ∀ j, child' w j = none
  others : ∀ v j, v ≠ w → ¬ (v = p ∧ j = k) → child' v j = child v j

namespace Grown
variable {v : V}

theorem ne_of_follow (g : Grown child child' p k w) (hw : w ≠ root) (h : follow child root q = some v) : v ≠ w := by
  rintro rfl
  induction q using List.reverseRecOn with
  | nil =>
    rw [follow_nil] at h
    cases h
    exact hw rfl
  | append_singleton q j _ =>
    rw [follow_snoc] at h
    obtain ⟨u, -, hc⟩ := Option.bind_eq_some_iff.1 h
    exact g.unreached u j hc

theorem keeps (g : Grown child child' p k w) (hw : w ≠ root) (h : follow child root q = some v) :
    follow child' root q = some v := by
  induction q using List.reverseRecOn generalizing v with
  | nil => exact h
  | append_singleton q j ih =>
    rw [follow_snoc] at h ⊢
    obtain ⟨u, hu, hc⟩ := Option.bind_eq_some_iff.1 h
    have edge : ¬ (u = p ∧ j = k) := by
      rintro ⟨rfl, rfl⟩
      rw [g.fresh] at hc
      cases hc
    rw [ih hu, Option.bind_some, g.others u j (g.ne_of_follow hw hu) edge, hc]

theorem old_or_new (g : Grown child child' p k w) (hr : Rooted child root) (hw : w ≠ root)
    (hp : follow child root P = some p) (h : follow child' root q = some v) :
    follow child root q = some v ∨ q = P ++ [k] := by
  induction q using List.reverseRecOn generalizing v with
  | nil => exact .inl h
  | append_singleton q j ih =>
    rw [follow_snoc] at h ⊢
    obtain ⟨u, hu, hc⟩ := Option.bind_eq_some_iff.1 h
    rcases ih hu with old | rfl
    · by_cases edge : u = p ∧ j = k
      · obtain ⟨rfl, rfl⟩ := edge
        exact .inr (by rw [hr.path_unique old hp])
      · rw [g.others u j (g.ne_of_follow hw old) edge] at hc
        exact .inl (by rw [old, Option.bind_some, hc])
    · -- nothing lies below the new leaf
      have : u = w := by
        rw [follow_snoc, g.keeps hw hp, Option.bind_some, g.added] at hu
        exact (Option.some.inj hu).symm
      rw [this, g.leaf] at hc
      cases hc

/-- **A new leaf is reached by its own path, and every other path leads where it did.** -/
theorem paths (g : Grown child child' p k w) (hr : Rooted child root) (hw : w ≠ root)
    (hp : follow child root P = some p) : follow child root (P ++ [k]) = none ∧
      follow child' root (P ++ [k]) = some w ∧ ∀ q, q ≠ P ++ [k] → follow child' root q = follow child root q := by
  refine ⟨?_, ?_, fun q hq => Option.ext fun v => ⟨fun h => ?_, fun h => g.keeps hw h⟩⟩
  · rw [follow_snoc, hp, Option.bind_some, g.fresh]
  · rw [follow_snoc, g.keeps hw hp, Option.bind_some, g.added]
  · exact (g.old_or_new hr hw hp h).resolve_right hq

end Grown

/-- `child'` is `child` without the edge to `w` and without the children of `w`. -/
structure Pruned (child child' : V → K → Option V) (p : V) (k : K) (w : V) : Prop where
  present : child p k = some w
  cut : child' p k = none
  gone : ∀ j, child' w j = none
  others : ∀ v j, v ≠ w → ¬ (v = p ∧ j = k) → child' v j = child v j

namespace Pruned
variable {v : V}

theorem only_old (g : Pruned child child' p k w) (hp : follow child root P = some p)
    (h : follow child' root q = some v) : follow child root q = some v ∧ ¬ P ++ [k] <+: q := by
  induction q using List.reverseRecOn generalizing v with
  | nil => exact ⟨h, by simp⟩
  | append_singleton q j ih =>
    rw [follow_snoc] at h ⊢
    obtain ⟨u, hu, hc⟩ := Option.bind_eq_some_iff.1 h
    obtain ⟨old, outside⟩ := ih hu
    have hne : u ≠ w := by
      rintro rfl
      rw [g.gone] at hc
      cases hc
    have edge : ¬ (u = p ∧ j = k) := by
      rintro ⟨rfl, rfl⟩
      rw [g.cut] at hc
      cases hc
    rw [g.others u j hne edge] at hc
    refine ⟨by rw [old, Option.bind_some, hc], fun below => ?_⟩
    rw [List.prefix_concat_iff] at below
    rcases below with e | below
    · obtain ⟨rfl, hj⟩ := List.append_inj' e rfl
      rw [hp] at old
      exact edge ⟨(Option.some.inj old).symm, (List.singleton_inj.1 hj).symm⟩
    · exact outside below

theorem keeps (g : Pruned child child' p k w) (hr : Rooted child root) (hp : follow child root P = some p)
    (h : follow child root q = some v) (outside : ¬ P ++ [k] <+: q) : follow child' root q = some v := by
  induction q using List.reverseRecOn generalizing v with
  | nil => exact h
  | append_singleton q j ih =>
    rw [follow_snoc] at h ⊢
    obtain ⟨u, hu, hc⟩ := Option.bind_eq_some_iff.1 h
    have hw : follow child root (P ++ [k]) = some w := by rw [follow_snoc, hp, Option.bind_some, g.present]
    have hne : u ≠ w := by
      rintro rfl
      exact outside (hr.path_unique hw hu ▸ List.prefix_append _ _)
    have edge : ¬ (u = p ∧ j = k) := by
      rintro ⟨rfl, rfl⟩
      exact outside (hr.path_unique hp hu ▸ List.prefix_rfl)
    rw [ih hu fun below => outside (below.trans (List.prefix_append _ _)), Option.bind_some, g.others u j hne edge, hc]

/-- **After a cut the paths through the edge lead nowhere, and every other path leads where
it did.** -/
theorem paths (g : Pruned child child' p k w) (hr : Rooted child root) (hp : follow child root P = some p) :
    (∀ q, P ++ [k] <+: q → follow child' root q = none) ∧
      ∀ q, ¬ P ++ [k] <+: q → follow child' root q = follow child root q := by
  constructor
  · intro q below
    by_contra h
    obtain ⟨v, hv⟩ := Option.ne_none_iff_exists'.1 h
    exact (g.only_old hp hv).2 below
  · intro q outside
    exact Option.ext fun v => ⟨fun h => (g.only_old hp h).1, fun h => g.keeps hr hp h outside⟩

/-- Cutting off a leaf loses no other node. -/
theorem keeps_reached (g : Pruned child child' p k w) (hr : Rooted child root) (hp : follow child root P = some p)
    (leaf : ∀ j, child w j = none) (h : follow child root q = some v) (hv : v ≠ w) : follow child' root q = some v := by
  refine g.keeps hr hp h ?_
  rintro ⟨r, rfl⟩
  rw [follow_append, follow_snoc, hp, Option.bind_some, g.present, Option.bind_some] at h
  cases r with
  | nil => exact hv (Option.some.inj h).symm
  | cons j r =>
    rw [follow, leaf] at h
    cases h

end Pruned

end Tree
