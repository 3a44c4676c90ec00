import Nachos.Mp2.Syscall

/-!
# What a system call moves

The calls of `userprog/exception.cc` carried out: the bytes that go between memory and the file
system, what register 2 is left with, and the memory after the call. The kernel's accesses
are those of `Memory.accessed`, and a call that respects the address spaces moves the bytes
of the program's own frames.
-/

namespace Nachos.Mp2
open Bytes Ownership
open Nachos.Mp1 (FileSystem OpenCall)

namespace Memory

variable {m m' : Memory} {addr : ℤ} {n : ℕ} {name bytes : List Byte}

def window (m : Memory) (addr : ℤ) (n : ℕ) : List Byte := tabulate n fun i => m.mainMemory (addr + i)

/-- A name and the byte that ends it. -/
def HasName (m : Memory) (addr : ℤ) (name : List Byte) : Prop :=
  0 ∉ name ∧ m.window addr (name.length + 1) = name ++ [0]

theorem getD_window {k : ℕ} (h : k < n) : (m.window addr n).getD k 0 = m.mainMemory (addr + k) :=
  getD_tabulate _ h

theorem mainMemory_store {k : ℕ} (h : k < bytes.length) : (m.store addr bytes).mainMemory (addr + k) = bytes.getD k 0 := by
  have inside : addr ≤ addr + k ∧ addr + k < addr + bytes.length := by omega
  have offset : (addr + k - addr).toNat = k := by omega
  change (if addr ≤ addr + k ∧ addr + k < addr + bytes.length then _ else _) = _
  rw [if_pos inside, offset]

/-- Bytes that are stored where they are leave the memory alone. -/
theorem store_window (m : Memory) (addr : ℤ) (n : ℕ) : m.store addr (m.window addr n) = m := by
  have cells : (m.store addr (m.window addr n)).mainMemory = m.mainMemory := by
    funext a
    by_cases inside : addr ≤ a ∧ a < addr + (m.window addr n).length
    · obtain ⟨k, rfl⟩ := Int.le.dest inside.1
      have bound : k < (m.window addr n).length := by omega
      rw [mainMemory_store bound, getD_window]
      rwa [window, length_tabulate] at bound
    · exact AddrSpace.store_of_not_mem inside
  exact congrArg (Memory.mk m.frameTableStatus) cells

theorem HasName.store (h : m.HasName addr name) : m.store addr (name ++ [0]) = m := by
  rw [← h.2]
  exact store_window m addr _

/-- The kernel reads a name up to the byte that ends it. -/
theorem HasName.reaches_iff (h : m.HasName addr name) (k : ℕ) :
    (∀ j < k, m.mainMemory (addr + j) ≠ 0) ↔ k < (name ++ [0]).length := by
  have cell (j : ℕ) (hj : j < name.length + 1) : m.mainMemory (addr + j) = (name ++ [0]).getD j 0 := by
    rw [← h.2, getD_window hj]
  rw [List.length_append, List.length_singleton]
  constructor
  · intro plain
    by_contra longer
    have last := plain name.length (by omega)
    rw [cell _ (Nat.lt_succ_self _)] at last
    simp at last
  · intro bound j hj
    have before : j < name.length := by omega
    rw [cell j (by omega), List.getD_append _ _ _ _ before, List.getD_eq_getElem _ _ before]
    exact fun zero => h.1 (zero ▸ List.getElem_mem before)

end Memory

/-- What `OpenAFile` returns. -/
def openedId : Option (Fin 20) → ℤ
  | some i => i
  | none => -1

/-- A call with the bytes that it moves: what register 2 is left with, and the memory and the table
of open files after it. `OpenForWrite` returns or ends the run, and the host opens no file
without a name. -/
inductive Handles (m : Memory) (fs : FileSystem) : Syscall → List Byte → ℤ → Memory → FileSystem → Prop
  | create (v : Word) (name : List Byte) (here : m.HasName v.toInt name) :
      Handles m fs (.create v) (name ++ [0]) 1 m fs
  | open (v : Word) (c : OpenCall) (here : m.HasName v.toInt c.name.chars) :
      Handles m fs (.open v) (c.name.chars ++ [0]) (openedId (fs.openAFile c).1) m (fs.openAFile c).2
  | openNothing (v : Word) (here : m.HasName v.toInt []) : Handles m fs (.open v) ([] ++ [0]) (-1) m fs
  | read (v numChar fileID : Word) (bytes : List Byte) (r : ℤ)
      (filled : bytes.length = transferred fs numChar.toInt fileID.toInt)
      (ret : fs.readFile numChar.toInt fileID.toInt bytes.length = some r) :
      Handles m fs (.read v numChar fileID) bytes r (m.store v.toInt bytes) fs
  | write (v numChar fileID : Word) (bytes : List Byte) (r : ℤ)
      (sent : bytes = m.window v.toInt (transferred fs numChar.toInt fileID.toInt))
      (ret : fs.writeAFile numChar.toInt fileID.toInt bytes.length = some r) :
      Handles m fs (.write v numChar fileID) bytes r m fs

namespace Handles

variable {m m' : Memory} {fs fs' : FileSystem} {c : Syscall} {bytes : List Byte} {r : ℤ}

/-- The memory after a call: its bytes are where the pointer says. -/
theorem eq_store (h : Handles m fs c bytes r m' fs') : m' = m.store c.pointer.toInt bytes := by
  cases h with
  | create v name here | openNothing v here => exact here.store.symm
  | «open» v c here => exact here.store.symm
  | read v numChar fileID bytes r filled ret => rfl
  | write v numChar fileID bytes r sent ret =>
    subst sent
    exact (m.store_window ..).symm

theorem reaches_iff (h : Handles m fs c bytes r m' fs') (k : ℕ) : m.Reaches fs c k ↔ k < bytes.length := by
  cases h with
  | create v name here | openNothing v here => exact here.reaches_iff k
  | «open» v c here => exact here.reaches_iff k
  | read v numChar fileID bytes r filled ret =>
    rw [filled]
    exact Iff.rfl
  | write v numChar fileID bytes r sent ret =>
    rw [sent, Memory.window, length_tabulate]
    exact Iff.rfl

/-- The bytes that a call moves are those that the kernel accesses. -/
theorem accessed_iff (h : Handles m fs c bytes r m' fs') (k : ℕ) (p : ℤ) :
    m.accessed fs c k = some p ↔ k < bytes.length ∧ p = c.pointer.toInt + k := by
  unfold Memory.accessed
  rw [Option.ite_none_right_eq_some, h.reaches_iff, Option.some_inj, eq_comm]

/-- Every other byte stays as it is. -/
theorem frame (h : Handles m fs c bytes r m' fs') {p : ℤ} (outside : ∀ k, m.accessed fs c k ≠ some p) :
    m'.mainMemory p = m.mainMemory p := by
  rw [h.eq_store]
  apply AddrSpace.store_of_not_mem
  intro inside
  obtain ⟨k, rfl⟩ := Int.le.dest inside.1
  exact outside k ((h.accessed_iff k _).2 ⟨by omega, rfl⟩)

variable {τ : Type} {s : Spaces τ} {t : τ} {a : AddrSpace}

/-- A call that respects the address spaces moves the bytes of its argument where the program has them. -/
theorem mapped {answer : ℤ} (h : Handles s.memory fs c bytes r m' fs') (respects : Respects s fs t a c answer) {k : ℕ}
    (bound : k < bytes.length) : a.phys (c.pointer.toNat + k) = some (c.pointer.toInt + k) := by
  have accessed := (h.accessed_iff k _).2 ⟨bound, rfl⟩
  exact ((respects.identity.accessed_iff k _).1 accessed).2

/-- It leaves the frames of the other programs alone. -/
theorem others {answer : ℤ} (h : Handles s.memory fs c bytes r m' fs') (respects : Respects s fs t a c answer) {u : τ} {b : AddrSpace}
    (ne : u ≠ t) (live : s.space u = some b) {f : ℕ} (mem : f ∈ b.frames) {p : ℤ} (inside : InFrame f p) :
    m'.mainMemory p = s.memory.mainMemory p := by
  apply h.frame
  intro k accessed
  exact (respects.within k p accessed).2.2 u b ne live f mem inside

end Handles

end Nachos.Mp2
