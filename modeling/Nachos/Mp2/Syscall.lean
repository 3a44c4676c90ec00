import Nachos.Mp1.FileSystem
import Nachos.Mp2.Spaces

/-!
# System calls and user memory

`SC_Create`, `SC_Open`, `SC_Read` and `SC_Write` of `userprog/exception.cc` on the file system
stub: the kernel takes the pointer of the program as an index into `mainMemory`.
-/

namespace Nachos.Mp2
open Bytes Transition Ownership
open Nachos.Mp1 (FileSystem)

/-- The calls with the registers that the handler reads. -/
inductive Syscall where
  | create (v : Word)
  | open (v : Word)
  | read (v numChar fileID : Word)
  | write (v numChar fileID : Word)

namespace Syscall

/-- Register 4. -/
def pointer : Syscall → Word
  | .create v | .open v | .read v _ _ | .write v _ _ => v

/-- What a call that fails returns. -/
def failure : Syscall → ℤ
  | .create _ => 0
  | .open _ | .read _ _ _ | .write _ _ _ => -1

end Syscall

/-- How many bytes `ReadFile` and `WriteAFile` hand to the host. -/
def transferred (fs : FileSystem) (size id : ℤ) : ℕ :=
  if size ≤ 0 then 0
  else if fs.slot id = none then 0
  else size.toNat

/-- Whether the kernel comes to byte `k` of the argument: a name is read up to the byte that ends it. -/
def Memory.Reaches (m : Memory) (fs : FileSystem) : Syscall → ℕ → Prop
  | .create v, k | .open v, k => ∀ j < k, m.mainMemory (v.toInt + j) ≠ 0
  | .read _ numChar fileID, k | .write _ numChar fileID, k => k < transferred fs numChar.toInt fileID.toInt

instance (m : Memory) (fs : FileSystem) (c : Syscall) (k : ℕ) : Decidable (m.Reaches fs c k) :=
  match c with
  | .create v | .open v => inferInstanceAs (Decidable (∀ j < k, m.mainMemory (v.toInt + j) ≠ 0))
  | .read _ numChar fileID | .write _ numChar fileID =>
    inferInstanceAs (Decidable (k < transferred fs numChar.toInt fileID.toInt))

/-- Where the kernel reads or writes the byte: `&mainMemory[val]` and what follows. -/
def Memory.accessed (m : Memory) (fs : FileSystem) (c : Syscall) (k : ℕ) : Option ℤ :=
  if m.Reaches fs c k then some (c.pointer.toInt + k) else none

/-- Where an instruction of the program finds the byte. -/
def AddrSpace.phys (a : AddrSpace) (vaddr : ℕ) : Option ℤ :=
  match a.machineTranslate vaddr 1 false with
  | .error _ => none
  | .ok (p, _) => some p

/-- The bytes of the argument, as the program sees them: a name goes on while its bytes are mapped
and not zero. -/
def AddrSpace.InArgument (a : AddrSpace) (m : Memory) (fs : FileSystem) : Syscall → ℕ → Prop
  | .create v, k | .open v, k => ∀ j < k, ∃ p, a.phys (v.toNat + j) = some p ∧ m.mainMemory p ≠ 0
  | .read _ numChar fileID, k | .write _ numChar fileID, k => k < transferred fs numChar.toInt fileID.toInt

/-- The call respects the address spaces; `answer` is what it leaves in register 2. -/
structure Respects {τ : Type} (s : Spaces τ) (fs : FileSystem) (t : τ) (a : AddrSpace) (c : Syscall) (answer : ℤ) :
    Prop where
  translated : (∀ k, a.InArgument s.memory fs c k → (a.phys (c.pointer.toNat + k)).isSome) →
    ∀ k p, s.memory.accessed fs c k = some p ↔ a.InArgument s.memory fs c k ∧ a.phys (c.pointer.toNat + k) = some p
  unmapped : (∃ k, a.InArgument s.memory fs c k ∧ a.phys (c.pointer.toNat + k) = none) →
    (∀ k, s.memory.accessed fs c k = none) ∧ answer = c.failure
  within : ∀ k p, s.memory.accessed fs c k = some p → 0 ≤ p ∧ p < memorySize ∧
    ∀ u b, u ≠ t → s.space u = some b → ∀ f ∈ b.frames, ¬ InFrame f p

/-- The page table maps the argument to the same physical addresses. -/
def AddrSpace.Identity (a : AddrSpace) (m : Memory) (fs : FileSystem) (c : Syscall) : Prop :=
  ∀ k, a.InArgument m fs c k → a.phys (c.pointer.toNat + k) = some (c.pointer.toInt + k)

namespace AddrSpace

variable {a : AddrSpace} {m : Memory} {fs : FileSystem} {c : Syscall}

theorem phys_inFrame {vaddr : ℕ} {p : ℤ} (h : a.phys vaddr = some p) :
    ∃ f ∈ a.frames, f < numPhysPages ∧ InFrame f p := by
  unfold phys at h
  split at h
  · cases h
  · rename_i q after translated
    obtain rfl := Option.some.inj h
    unfold machineTranslate at translated
    split_ifs at translated
    split at translated
    · cases translated
    · rename_i entry found
      split_ifs at translated with invalid readonly big
      obtain ⟨rfl, -⟩ := Prod.mk.inj (Except.ok.inj translated)
      have offset : vaddr % pageSize < pageSize := Nat.mod_lt _ (by decide)
      refine ⟨entry.physicalPage, List.mem_map_of_mem (List.mem_of_getElem? found), by omega, ?_⟩
      unfold InFrame
      omega

/-- The kernel always touches the first byte of an argument that is not empty. -/
theorem reaches_zero {k : ℕ} (h : a.InArgument m fs c k) : m.Reaches fs c 0 := by
  cases c with
  | create v | «open» v =>
    intro j impossible
    exact (Nat.not_lt_zero j impossible).elim
  | read v n id | write v n id => exact Nat.zero_lt_of_lt h

/-- A name in memory and the name that the program sees. -/
theorem name_iff {v : Word} (h : ∀ k, (∀ j < k, ∃ p, a.phys (v.toNat + j) = some p ∧ m.mainMemory p ≠ 0) →
    a.phys (v.toNat + k) = some (v.toInt + k)) (k : ℕ) :
    (∀ j < k, m.mainMemory (v.toInt + j) ≠ 0) ↔ ∀ j < k, ∃ p, a.phys (v.toNat + j) = some p ∧ m.mainMemory p ≠ 0 := by
  constructor
  · intro code
    have upto (n : ℕ) (hn : n ≤ k) : ∀ j < n, ∃ p, a.phys (v.toNat + j) = some p ∧ m.mainMemory p ≠ 0 := by
      induction n with
      | zero => exact fun j impossible => (Nat.not_lt_zero j impossible).elim
      | succ n ih =>
        have before := ih (by omega)
        intro j hj
        rcases Nat.lt_succ_iff_lt_or_eq.1 hj with earlier | rfl
        · exact before j earlier
        · exact ⟨_, h j before, code j (by omega)⟩
    exact upto k le_rfl
  · intro seen j hj
    obtain ⟨p, maps, nonzero⟩ := seen j hj
    have same := h j fun i hi => seen i (by omega)
    rw [maps] at same
    rwa [← Option.some.inj same]

theorem Identity.reaches_iff (h : a.Identity m fs c) (k : ℕ) : m.Reaches fs c k ↔ a.InArgument m fs c k := by
  cases c with
  | create v | «open» v => exact name_iff h k
  | read v n id | write v n id => exact Iff.rfl

/-- Under the identity the kernel finds the argument. -/
theorem Identity.accessed_iff (h : a.Identity m fs c) (k : ℕ) (p : ℤ) :
    m.accessed fs c k = some p ↔ a.InArgument m fs c k ∧ a.phys (c.pointer.toNat + k) = some p := by
  unfold Memory.accessed
  by_cases reaches : m.Reaches fs c k
  · have inside := (h.reaches_iff k).1 reaches
    rw [if_pos reaches, h k inside]
    exact ⟨fun eq => ⟨inside, eq⟩, fun both => both.2⟩
  · rw [if_neg reaches]
    constructor
    · intro impossible
      cases impossible
    · rintro ⟨inside, -⟩
      exact (reaches ((h.reaches_iff k).2 inside)).elim

end AddrSpace

variable {τ : Type} {s : Spaces τ} {fs : FileSystem} {t : τ} {a : AddrSpace} {c : Syscall} {answer : ℤ}

/-- An address that the running page table yields lies in a frame of its own. -/
theorem Spaces.Sound.own (h : s.Sound) (live : s.space t = some a) {vaddr : ℕ} {p : ℤ} (maps : a.phys vaddr = some p) :
    0 ≤ p ∧ p < memorySize ∧ ∀ u b, u ≠ t → s.space u = some b → ∀ f ∈ b.frames, ¬ InFrame f p := by
  obtain ⟨f, mem, bound, inside⟩ := AddrSpace.phys_inFrame maps
  unfold InFrame pageSize at inside
  unfold numPhysPages at bound
  refine ⟨by omega, by unfold memorySize numPhysPages pageSize; omega, fun u b ne live' g mem' inside' => ?_⟩
  have same : f = g := by
    unfold InFrame pageSize at inside'
    omega
  rw [← Spaces.holds_of_some live] at mem
  rw [← Spaces.holds_of_some live', ← same] at mem'
  exact h.exact.disjoint u t ne mem' mem

theorem Respects.identity (h : Respects s fs t a c answer) : a.Identity s.memory fs c := by
  by_cases mapped : ∀ k, a.InArgument s.memory fs c k → (a.phys (c.pointer.toNat + k)).isSome
  · intro k inside
    obtain ⟨p, maps⟩ := Option.isSome_iff_exists.1 (mapped k inside)
    have accessed := (h.translated mapped k p).2 ⟨inside, maps⟩
    unfold Memory.accessed at accessed
    split_ifs at accessed
    rw [maps, ← accessed]
  · obtain ⟨k, missing⟩ := not_forall.1 mapped
    obtain ⟨inside, missing⟩ := Classical.not_imp.1 missing
    have touched := (h.unmapped ⟨k, inside, Option.not_isSome_iff_eq_none.1 missing⟩).1 0
    unfold Memory.accessed at touched
    rw [if_pos (AddrSpace.reaches_zero inside)] at touched
    cases touched

/-- **When a call respects the address spaces.** -/
theorem respects_iff [DecidableEq τ] (h : Reach (spaces τ) (fun _ _ => True) s) (live : s.space t = some a) :
    Respects s fs t a c answer ↔ a.Identity s.memory fs c := by
  have sound := Spaces.Sound.of_reach h
  constructor
  · exact Respects.identity
  · intro identity
    constructor
    · exact fun _ => identity.accessed_iff
    · rintro ⟨k, inside, missing⟩
      rw [identity k inside] at missing
      cases missing
    · intro k p accessed
      exact sound.own live ((identity.accessed_iff k p).1 accessed).2

theorem length_noNames : (List.replicate 2000 (0 : Byte)).length = 2000 := List.length_replicate

/-- No file is open. -/
def noFiles : FileSystem := ⟨fun _ => none, List.replicate 2000 0, length_noNames⟩

theorem respects_iff_twoLoaded : ∃ a, Spaces.twoLoaded.space false = some a ∧
    (Respects Spaces.twoLoaded noFiles false a (.open 0) (-1) ↔
      a.Identity Spaces.twoLoaded.memory noFiles (.open 0)) := by
  have loaded : (Spaces.twoLoaded.space false).isSome := by decide +kernel
  obtain ⟨a, live⟩ := Option.isSome_iff_exists.1 loaded
  exact ⟨a, live, respects_iff Spaces.reach_twoLoaded live⟩

/-- The second of two programs opens the file that the first one's byte 0 names. -/
theorem open_of_second : ¬ ∀ (s : Spaces Bool) (fs : FileSystem) (t : Bool) (a : AddrSpace) (c : Syscall) (answer : ℤ),
    Reach (spaces Bool) (fun _ _ => True) s → s.space t = some a → Respects s fs t a c answer := by
  intro claim
  have loaded : (Spaces.twoLoaded.space true).bind (fun a => a.phys 0) = some 1152 := by decide +kernel
  obtain ⟨a, live, frame⟩ := Option.bind_eq_some_iff.1 loaded
  have respects := claim Spaces.twoLoaded noFiles true a (.open 0) 0 Spaces.reach_twoLoaded live
  have zero : a.phys 0 = some 0 := respects.identity 0 fun j impossible => (Nat.not_lt_zero j impossible).elim
  rw [frame] at zero
  exact absurd (Option.some.inj zero) (by decide)

end Nachos.Mp2
