import Mathlib.Data.List.Nodup
import Mathlib.Logic.Function.Basic
import Mathlib.Tactic.Common

/-!
# Linked cells in a heap

A heap has a cell at some of its addresses. A deleted cell is gone, and its address is not used
again, so that a read of it is a fault. `Segment h p l q` says that the cells of `l` lead from
pointer `p` to pointer `q`.
-/

namespace Cells

/-- An address, or the null pointer. -/
abbrev Ptr := Option ℕ

structure Cell (α : Type) where
  item : α
  next : Ptr

inductive Fault where
  /-- A field of a cell that has been deleted is read. -/
  | deleted
  /-- The null pointer is followed. -/
  | null
  | assertion
  | diverges
  deriving DecidableEq

/-- The addresses from `brk` on have not been used. -/
structure Heap (α : Type) where
  cells : ℕ → Option (Cell α)
  brk : ℕ

namespace Heap

variable {α : Type}

def empty : Heap α := ⟨fun _ => none, 0⟩

/-- `new`. -/
def alloc (h : Heap α) (c : Cell α) : ℕ × Heap α := (h.brk, ⟨Function.update h.cells h.brk (some c), h.brk + 1⟩)

/-- `delete`. -/
def delete (h : Heap α) : Ptr → Heap α
  | none => h
  | some a => { h with cells := Function.update h.cells a none }

/-- The cell behind a pointer. -/
def read (h : Heap α) : Ptr → Except Fault (Cell α)
  | none => .error .null
  | some a =>
    match h.cells a with
    | none => .error .deleted
    | some c => .ok c

/-- Stores the pointer to the next cell. -/
def setNext (h : Heap α) (p next : Ptr) : Except Fault (Heap α) := do
  let c ← h.read p
  match p with
  | none => .error .null
  | some a => .ok { h with cells := Function.update h.cells a (some { c with next := next }) }

end Heap

variable {α : Type} {h : Heap α} {p q : Ptr} {a b : ℕ} {x : α} {l l' : List (ℕ × α)}

theorem Heap.read_some {c : Cell α} (here : h.cells a = some c) : h.read (some a) = .ok c := by
  rw [read, here]

theorem Heap.read_deleted (gone : h.cells a = none) : h.read (some a) = .error .deleted := by
  rw [read, gone]

/-- The cells of `l` lead from `p` to `q`. -/
def Segment (h : Heap α) : Ptr → List (ℕ × α) → Ptr → Prop
  | p, [], q => p = q
  | p, (a, x) :: l, q => p = some a ∧ ∃ n, h.cells a = some ⟨x, n⟩ ∧ Segment h n l q

/-- What stands at an address of a segment. -/
theorem Segment.item (segment : Segment h p l q) (mem : (a, x) ∈ l) : ∃ n, h.cells a = some ⟨x, n⟩ := by
  induction l generalizing p with
  | nil => cases mem
  | cons c l ih =>
    obtain ⟨-, n, here, rest⟩ := segment
    obtain same | later := List.mem_cons.1 mem
    · subst same
      exact ⟨n, here⟩
    · exact ih rest later

/-- A segment stands as long as its cells do. -/
theorem Segment.frame {h' : Heap α} (segment : Segment h p l q) (same : ∀ c ∈ l, h'.cells c.1 = h.cells c.1) : Segment h' p l q := by
  induction l generalizing p with
  | nil => exact segment
  | cons c l ih =>
    obtain ⟨rfl, n, here, rest⟩ := segment
    obtain ⟨this, others⟩ := List.forall_mem_cons.1 same
    exact ⟨rfl, n, this.trans here, ih rest others⟩

theorem Segment.append : Segment h p (l ++ l') q ↔ ∃ r, Segment h p l r ∧ Segment h r l' q := by
  induction l generalizing p with
  | nil =>
    constructor
    · exact fun segment => ⟨p, rfl, segment⟩
    · rintro ⟨r, rfl, segment⟩
      exact segment
  | cons c l ih =>
    constructor
    · rintro ⟨rfl, n, here, rest⟩
      obtain ⟨r, front, back⟩ := ih.1 rest
      exact ⟨r, ⟨rfl, n, here, front⟩, back⟩
    · rintro ⟨r, ⟨rfl, n, here, front⟩, back⟩
      exact ⟨rfl, n, here, ih.2 ⟨r, front, back⟩⟩

/-- A cell is hung on the last one. -/
theorem Segment.snoc {h' : Heap α} {y : α} (segment : Segment h p (l ++ [(a, x)]) none) (nodup : ((l ++ [(a, x)]).map Prod.fst).Nodup)
    (here : h'.cells a = some ⟨x, some b⟩) (new : h'.cells b = some ⟨y, none⟩) (same : ∀ c, c ≠ a → h'.cells c = h.cells c) :
    Segment h' p (l ++ [(a, x)] ++ [(b, y)]) none := by
  obtain ⟨r, front, rfl, -⟩ := Segment.append.1 segment
  rw [List.map_append, List.nodup_append] at nodup
  have kept := front.frame fun c mem => same c.1 (nodup.2.2 c.1 (List.mem_map_of_mem mem) a (by simp))
  rw [List.append_assoc]
  exact Segment.append.2 ⟨some a, kept, rfl, some b, here, rfl, none, new, rfl⟩

/-- A new cell leaves the others as they are. -/
theorem Heap.alloc_eq (h : Heap α) (c : Cell α) : ∃ h', h.alloc c = (h.brk, h') ∧ h'.brk = h.brk + 1 ∧
    h'.cells h.brk = some c ∧ ∀ b, b ≠ h.brk → h'.cells b = h.cells b :=
  ⟨_, rfl, rfl, Function.update_self .., fun _ other => Function.update_of_ne other _ _⟩

/-- Storing a pointer leaves the other cells as they are. -/
theorem Heap.setNext_some {c : Cell α} (here : h.cells a = some c) (next : Ptr) :
    ∃ h', h.setNext (some a) next = .ok h' ∧ h'.brk = h.brk ∧ h'.cells a = some { c with next := next } ∧
      ∀ b, b ≠ a → h'.cells b = h.cells b := by
  refine ⟨{ h with cells := Function.update h.cells a (some { c with next := next }) }, ?_, rfl, Function.update_self .., ?_⟩
  · unfold setNext
    rw [Heap.read_some here]
    rfl
  · exact fun b other => Function.update_of_ne other _ _

/-- Storing a pointer touches one cell. -/
theorem Heap.setNext_keeps {h' : Heap α} {next : Ptr} (done : h.setNext p next = .ok h') :
    h'.brk = h.brk ∧ ∀ b, p ≠ some b → h'.cells b = h.cells b := by
  cases p with
  | none => cases done
  | some a =>
    cases here : h.cells a with
    | none =>
      rw [setNext, Heap.read_deleted here] at done
      cases done
    | some c =>
      obtain ⟨h₁, set, brk, -, keep⟩ := Heap.setNext_some here next
      obtain rfl := Except.ok.inj (done.symm.trans set)
      exact ⟨brk, fun b other => keep b fun same => other (congrArg some same.symm)⟩

/-- A new cell is hung on the last one. -/
theorem Segment.hang {y : α} (segment : Segment h p l none) (nonempty : l ≠ []) (nodup : (l.map Prod.fst).Nodup)
    (new : h.cells b = some ⟨y, none⟩) (other : b ∉ l.map Prod.fst) :
    ∃ h', h.setNext (l.getLast?.map Prod.fst) (some b) = .ok h' ∧ h'.brk = h.brk ∧ Segment h' p (l ++ [(b, y)]) none := by
  obtain ⟨init, ⟨a, x⟩, eq⟩ := (List.eq_nil_or_concat l).resolve_left nonempty
  rw [List.concat_eq_append] at eq
  subst eq
  obtain ⟨n, here⟩ := segment.item (List.mem_append_right init (List.mem_singleton_self (a, x)))
  obtain ⟨h', set, brk, at_a, kept⟩ := Heap.setNext_some here (some b)
  have ne : b ≠ a := fun same => other (by simp [same])
  refine ⟨h', ?_, brk, segment.snoc nodup at_a ((kept b ne).trans new) kept⟩
  rwa [List.getLast?_append_cons]

/-- A new cell is put behind the first one, in front of the others. -/
theorem Segment.between {y : α} (segment : Segment h (some a) ((a, x) :: l) q) (nodup : (((a, x) :: l).map Prod.fst).Nodup)
    {n next : Ptr} (here : h.cells a = some ⟨x, next⟩) (new : h.cells b = some ⟨y, n⟩) (other : b ∉ ((a, x) :: l).map Prod.fst) :
    ∃ h₁ h₂, h.setNext (some b) next = .ok h₁ ∧ h₁.setNext (some a) (some b) = .ok h₂ ∧ h₂.brk = h.brk ∧
      Segment h₂ (some a) ((a, x) :: (b, y) :: l) q ∧ ∀ c, c ≠ a → c ≠ b → h₂.cells c = h.cells c := by
  obtain ⟨-, m, here', rest⟩ := segment
  obtain rfl : m = next := by
    rw [here', Option.some.injEq, Cell.mk.injEq] at here
    exact here.2
  rw [List.map_cons, List.nodup_cons] at nodup
  rw [List.map_cons, List.mem_cons, not_or] at other
  obtain ⟨h₁, one, brk₁, at₁, kept₁⟩ := Heap.setNext_some new m
  obtain ⟨h₂, two, brk₂, at₂, kept₂⟩ := Heap.setNext_some ((kept₁ a (Ne.symm other.1)).trans here) (some b)
  have kept (c : ℕ) (first : c ≠ a) (second : c ≠ b) : h₂.cells c = h.cells c := (kept₂ c first).trans (kept₁ c second)
  refine ⟨h₁, h₂, one, two, brk₂.trans brk₁, ⟨rfl, some b, at₂, rfl, m, (kept₂ b other.1).trans at₁, rest.frame ?_⟩, kept⟩
  intro c mem
  have cell := List.mem_map_of_mem (f := Prod.fst) mem
  exact kept c.1 (fun same => nodup.1 (same ▸ cell)) fun same => other.2 (same ▸ cell)

end Cells
