import Mathlib.Algebra.BigOperators.Group.List.Basic
import Mathlib.Algebra.Order.Group.Multiset
import Mathlib.Data.Multiset.Range
import Nachos.Pthreads.Pipeline

/-!
# What the pipeline does to its items

The ledger of a state counts the items by what has been done to them, wherever they are. Each
step of the pipeline is one of four entries: nothing, a line read, an item through the
producers' transformation, an item through the consumers'. A consumer that is cancelled holds
no item, because it takes and hands over items with cancellation disabled.
-/

namespace Nachos.Pthreads
open Transition

/-- The items as read, after one transformation and after both, and the number of lines read. -/
structure Ledger where
  raw : Multiset Piece
  half : Multiset Piece
  full : Multiset Piece
  read : ℕ

namespace Ledger

variable {input : List Item} {l l' : Ledger}

inductive Entry (input : List Item) (l l' : Ledger) : Prop where
  | nothing : l'.raw = l.raw → l'.half = l.half → l'.full = l.full → l'.read = l.read → Entry input l l'
  | read (item : Item) : input[l.read]? = some item → l'.raw = ⟨item, l.read⟩ ::ₘ l.raw → l'.half = l.half →
      l'.full = l.full → l'.read = l.read + 1 → Entry input l l'
  | produce (p p' : Piece) : p.transformed producerTransform = some p' → l.raw = p ::ₘ l'.raw →
      l'.half = p' ::ₘ l.half → l'.full = l.full → l'.read = l.read → Entry input l l'
  | consume (p p' : Piece) : p.transformed consumerTransform = some p' → l'.raw = l.raw →
      l.half = p ::ₘ l'.half → l'.full = p' ::ₘ l.full → l'.read = l.read → Entry input l l'

/-- What becomes of line `i`. -/
def produced (input : List Item) (i : ℕ) : Option Item := input[i]?.bind producerTransform

def consumed (input : List Item) (i : ℕ) : Option Item := (produced input i).bind consumerTransform

/-- Every line read is there exactly once, as far transformed as its place says. -/
structure Complete (input : List Item) (l : Ledger) : Prop where
  lines : (l.raw + l.half + l.full).map Piece.line = Multiset.range l.read
  raw : ∀ p ∈ l.raw, input[p.line]? = some p.item
  half : ∀ p ∈ l.half, produced input p.line = some p.item
  full : ∀ p ∈ l.full, consumed input p.line = some p.item

theorem transformed_eq {p p' : Piece} {transform : Item → Option Item} (h : p.transformed transform = some p') :
    p'.line = p.line ∧ transform p.item = some p'.item := by
  obtain ⟨item, eq, rfl⟩ := Option.map_eq_some_iff.1 h
  exact ⟨rfl, eq⟩

theorem complete_zero (input : List Item) : Complete input ⟨0, 0, 0, 0⟩ where
  lines := rfl
  raw p hp := (Multiset.notMem_zero p hp).elim
  half p hp := (Multiset.notMem_zero p hp).elim
  full p hp := (Multiset.notMem_zero p hp).elim

theorem Complete.entry (h : l.Complete input) (e : Entry input l l') : l'.Complete input := by
  cases e with
  | nothing raw half full read =>
    refine ⟨?_, ?_, ?_, ?_⟩
    · rw [raw, half, full, read, h.lines]
    · rw [raw]
      exact h.raw
    · rw [half]
      exact h.half
    · rw [full]
      exact h.full
  | read item line raw half full read =>
    refine ⟨?_, ?_, ?_, ?_⟩
    · rw [raw, half, full, read, Multiset.cons_add, Multiset.cons_add, Multiset.map_cons, h.lines, Multiset.range_succ]
    · rw [raw, Multiset.forall_mem_cons]
      exact ⟨line, h.raw⟩
    · rw [half]
      exact h.half
    · rw [full]
      exact h.full
  | produce p p' made raw half full read =>
    obtain ⟨line, item⟩ := transformed_eq made
    have before := h.raw
    rw [raw, Multiset.forall_mem_cons] at before
    refine ⟨?_, before.2, ?_, ?_⟩
    · rw [read, ← h.lines, raw, half, full]
      simp only [Multiset.map_add, Multiset.map_cons, Multiset.add_cons, Multiset.cons_add, line]
    · rw [half, Multiset.forall_mem_cons, produced, line, before.1]
      exact ⟨item, h.half⟩
    · rw [full]
      exact h.full
  | consume p p' made raw half full read =>
    obtain ⟨line, item⟩ := transformed_eq made
    have before := h.half
    rw [half, Multiset.forall_mem_cons] at before
    refine ⟨?_, ?_, before.2, ?_⟩
    · rw [read, ← h.lines, raw, half, full]
      simp only [Multiset.map_add, Multiset.map_cons, Multiset.add_cons, Multiset.cons_add, line]
    · rw [raw]
      exact h.raw
    · rw [full, Multiset.forall_mem_cons, consumed, line, before.1]
      exact ⟨item, h.full⟩

/-- Once `n` lines are through, the result is the image of the first `n` lines. -/
theorem Complete.result {n : ℕ} (h : l.Complete input) (read : l.read ≤ n) {out rest : Multiset Piece} (split : l.full = rest + out)
    (count : out.card = n) (bound : n ≤ input.length) :
    out.map (fun p => some p.item) = (input.take n).map fun item => (producerTransform item).bind consumerTransform := by
  have cards : l.raw.card + l.half.card + (rest.card + n) = l.read := by
    have := congrArg Multiset.card h.lines
    simpa [split, count] using this
  have noRaw : l.raw = 0 := Multiset.card_eq_zero.1 (by omega)
  have noHalf : l.half = 0 := Multiset.card_eq_zero.1 (by omega)
  have noRest : rest = 0 := Multiset.card_eq_zero.1 (by omega)
  have all : l.full = out := by rw [split, noRest, zero_add]
  have lines : out.map Piece.line = Multiset.range n := by
    rw [← all, ← show l.read = n by omega, ← h.lines, noRaw, noHalf, add_zero, zero_add]
  calc out.map (fun p => some p.item) = out.map (fun p => consumed input p.line) :=
        Multiset.map_congr rfl fun p hp => (h.full p (all ▸ hp)).symm
    _ = (out.map Piece.line).map (consumed input) := by
      rw [Multiset.map_map]
      rfl
    _ = (Multiset.range n).map (consumed input) := by rw [lines]
    _ = (input.take n).map fun item => (producerTransform item).bind consumerTransform := by
      rw [Multiset.range, Multiset.map_coe]
      congr 1
      apply List.ext_getElem
      · simp [bound]
      · intro i hi _
        have inside : i < input.length := by
          simp at hi
          omega
        simp [consumed, produced, inside]

end Ledger

end Nachos.Pthreads
