import Mathlib.Data.List.Nodup
import Mathlib.Tactic.Common

/-!
# Forests in preorder

Each node has an ordered list of children, and a route goes from a root down to a node.
`Preorder` lists a forest with each node before the nodes below it. In a forest where a
node has one route the list has every node once.
-/

namespace Forest

variable {α : Type} {children : α → List α} {roots rest l : List α} {lines : List (ℕ × α)} {a x : α} {k n : ℕ}

/-- The nodes of a way from a root downwards. -/
def IsRoute (children : α → List α) : List α → List α → Prop
  | _, [] => True
  | roots, a :: route => a ∈ roots ∧ IsRoute children (children a) route

/-- The nodes of a forest with their depths, counted from `k`: each node stands right before
what is below it, and siblings stand in their order. -/
inductive Preorder (children : α → List α) : ℕ → List α → List (ℕ × α) → Prop where
  | nil {k : ℕ} : Preorder children k [] []
  | cons {k : ℕ} {a : α} {rest : List α} {below after : List (ℕ × α)} : Preorder children (k + 1) (children a) below →
      Preorder children k rest after → Preorder children k (a :: rest) ((k, a) :: (below ++ after))

theorem IsRoute.tail {route : List α} (h : IsRoute children rest route) : IsRoute children (a :: rest) route := by
  cases route with
  | nil => trivial
  | cons b route => exact ⟨List.mem_cons_of_mem a h.1, h.2⟩

theorem IsRoute.cons {route : List α} (h : IsRoute children (children a) route) :
    IsRoute children (a :: rest) (a :: route) :=
  ⟨List.mem_cons_self, h⟩

namespace Preorder

/-- **The list has what routes lead to**, at the depth of the route. -/
theorem mem_iff (order : Preorder children k roots lines) :
    (n, x) ∈ lines ↔ ∃ route, IsRoute children roots (route ++ [x]) ∧ n = k + route.length := by
  induction order with
  | nil =>
    constructor
    · intro mem
      cases mem
    · rintro ⟨route, way, -⟩
      cases route with
      | nil => cases way.1
      | cons b route => cases way.1
  | @cons k a rest below after _ _ down across =>
    rw [List.mem_cons, List.mem_append, down, across]
    constructor
    · rintro (here | ⟨route, way, rfl⟩ | ⟨route, way, rfl⟩)
      · obtain ⟨rfl, rfl⟩ := Prod.mk.inj here
        exact ⟨[], ⟨List.mem_cons_self, trivial⟩, rfl⟩
      · exact ⟨a :: route, way.cons, by rw [List.length_cons]; omega⟩
      · exact ⟨route, way.tail, rfl⟩
    · rintro ⟨route, way, rfl⟩
      cases route with
      | nil =>
        rcases List.mem_cons.1 way.1 with rfl | other
        · exact .inl rfl
        · exact .inr (.inr ⟨[], ⟨other, trivial⟩, rfl⟩)
      | cons b route =>
        rcases List.mem_cons.1 way.1 with rfl | other
        · exact .inr (.inl ⟨route, way.2, by rw [List.length_cons]; omega⟩)
        · exact .inr (.inr ⟨b :: route, ⟨other, way.2⟩, rfl⟩)

/-- A forest has one such list. -/
theorem unique {lines' : List (ℕ × α)} (order : Preorder children k roots lines) (order' : Preorder children k roots lines') :
    lines = lines' := by
  induction order generalizing lines' with
  | nil =>
    cases order'
    rfl
  | cons _ _ down across =>
    cases order' with
    | cons below after => rw [down below, across after]

end Preorder

/-- Every node has one route, and no list of siblings names a node twice. -/
structure Simple (children : α → List α) (roots : List α) : Prop where
  route : ∀ route route' x, IsRoute children roots (route ++ [x]) → IsRoute children roots (route' ++ [x]) → route = route'
  distinct : roots.Nodup
  siblings : ∀ route a, IsRoute children roots (route ++ [a]) → (children a).Nodup

theorem Simple.tail (simple : Simple children (a :: rest)) : Simple children rest where
  route _ _ _ way way' := simple.route _ _ _ way.tail way'.tail
  distinct := (List.nodup_cons.1 simple.distinct).2
  siblings _ _ way := simple.siblings _ _ way.tail

theorem Simple.down (simple : Simple children (a :: rest)) : Simple children (children a) where
  route _ _ _ way way' := List.tail_eq_of_cons_eq (simple.route (a :: _) (a :: _) _ way.cons way'.cons)
  distinct := simple.siblings [] a ⟨List.mem_cons_self, trivial⟩
  siblings _ _ way := simple.siblings (a :: _) _ way.cons

/-- **A simple forest is listed without repetition.** -/
theorem Preorder.nodup (order : Preorder children k roots lines) (simple : Simple children roots) :
    (lines.map Prod.snd).Nodup := by
  induction order with
  | nil => exact List.nodup_nil
  | @cons k a rest below after belowOrder afterOrder down across =>
    have fresh : a ∉ rest := (List.nodup_cons.1 simple.distinct).1
    have inBelow : ∀ {x}, x ∈ below.map Prod.snd → ∃ route, IsRoute children (children a) (route ++ [x]) := by
      intro x mem
      obtain ⟨⟨n, y⟩, listed, rfl⟩ := List.mem_map.1 mem
      obtain ⟨route, way, -⟩ := belowOrder.mem_iff.1 listed
      exact ⟨route, way⟩
    have inAfter : ∀ {x}, x ∈ after.map Prod.snd → ∃ route, IsRoute children rest (route ++ [x]) := by
      intro x mem
      obtain ⟨⟨n, y⟩, listed, rfl⟩ := List.mem_map.1 mem
      obtain ⟨route, way, -⟩ := afterOrder.mem_iff.1 listed
      exact ⟨route, way⟩
    have here : IsRoute children (a :: rest) ([] ++ [a]) := ⟨List.mem_cons_self, trivial⟩
    rw [List.map_cons, List.map_append, List.nodup_cons, List.nodup_append']
    refine ⟨fun mem => ?_, down simple.down, across simple.tail, fun x mem mem' => ?_⟩
    · rcases List.mem_append.1 mem with mem | mem
      · obtain ⟨route, way⟩ := inBelow mem
        cases simple.route _ (a :: route) _ here way.cons
      · obtain ⟨route, way⟩ := inAfter mem
        cases simple.route _ _ _ here way.tail
        exact fresh way.1
    · -- one route to `x` starts at `a`, the other does not
      obtain ⟨route, way⟩ := inBelow mem
      obtain ⟨route', way'⟩ := inAfter mem'
      cases simple.route (a :: route) _ _ way.cons way'.tail
      exact fresh way'.1

end Forest
