import Nachos.Base.Bytes

/-!
# Logs of writes

A memory is a byte function, a write puts some bytes from an address on, and a log is a list
of writes. What a log leaves at an address is settled by the writes that cover it: none, or
all of them with one byte. Nothing here depends on a particular program.
-/

namespace Bytes

/-- A write: its address and bytes. -/
abbrev Write := ℤ × List Byte

namespace Write

def Covers (w : Write) (a : ℤ) : Prop := w.1 ≤ a ∧ a < w.1 + w.2.length

instance (w : Write) (a : ℤ) : Decidable (w.Covers a) := inferInstanceAs (Decidable (_ ∧ _))

/-- The byte of a write at an address it covers. -/
def byteAt (w : Write) (a : ℤ) : Byte := w.2.getD (a - w.1).toNat 0

/-- The memory after the write. -/
def apply (memory : ℤ → Byte) (w : Write) (a : ℤ) : Byte := if w.Covers a then w.byteAt a else memory a

end Write

/-- The memory after a log. -/
def applyLog (memory : ℤ → Byte) (log : List Write) : ℤ → Byte := log.foldl Write.apply memory

variable {memory : ℤ → Byte} {log log' : List Write} {a : ℤ} {b : Byte}

theorem applyLog_append : applyLog memory (log ++ log') = applyLog (applyLog memory log) log' := List.foldl_append

/-- What no write covers is left alone. -/
theorem applyLog_other (other : ∀ w ∈ log, ¬ w.Covers a) : applyLog memory log a = memory a := by
  induction log generalizing memory with
  | nil => rfl
  | cons w log ih =>
    obtain ⟨here, later⟩ := List.forall_mem_cons.1 other
    rw [applyLog, List.foldl_cons, ← applyLog, ih later]
    exact if_neg here

/-- The writes that cover the address agree with what is there. -/
theorem applyLog_same (same : ∀ w ∈ log, w.Covers a → w.byteAt a = b) (before : memory a = b) : applyLog memory log a = b := by
  induction log generalizing memory with
  | nil => exact before
  | cons w log ih =>
    obtain ⟨here, later⟩ := List.forall_mem_cons.1 same
    apply ih later
    rw [Write.apply]
    split
    · exact here ‹_›
    · exact before

/-- **Some write covers the address, and all that do agree.** -/
theorem applyLog_covered (covered : ∃ w ∈ log, w.Covers a) (same : ∀ w ∈ log, w.Covers a → w.byteAt a = b) :
    applyLog memory log a = b := by
  induction log generalizing memory with
  | nil =>
    obtain ⟨w, mem, -⟩ := covered
    cases mem
  | cons w log ih =>
    obtain ⟨here, later⟩ := List.forall_mem_cons.1 same
    by_cases hit : w.Covers a
    · apply applyLog_same later
      rw [Write.apply, if_pos hit, here hit]
    · apply ih _ later
      obtain ⟨w', mem, covers⟩ := covered
      rcases List.mem_cons.1 mem with rfl | mem
      · exact absurd covers hit
      · exact ⟨w', mem, covers⟩

end Bytes
