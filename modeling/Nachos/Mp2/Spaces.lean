import Nachos.Mp2.Frames

/-!
# The live address spaces

Programs are loaded into fresh address spaces, run and are destroyed, in any order. An access
of a program goes through its page table; a system call may besides have the host fill a
buffer anywhere in main memory.
-/

namespace Nachos.Mp2
open Bytes Transition Ownership

/-- Main memory, the frame table and the address spaces that `Load` has returned TRUE for. -/
structure Spaces (τ : Type) where
  memory : Memory
  space : τ → Option AddrSpace

namespace Spaces

variable {τ : Type} [DecidableEq τ] {s s' : Spaces τ} {t u : τ} {a b : AddrSpace}

def put (s : Spaces τ) (m : Memory) (t : τ) (o : Option AddrSpace) : Spaces τ := ⟨m, Function.update s.space t o⟩

/-- A fresh address space is loaded. -/
def load (s : Spaces τ) (t : τ) (exe : Option Executable) : Option (Spaces τ) :=
  match s.space t with
  | none => (AddrSpace.load s.memory exe).map fun r => s.put r.2 t r.1
  | some _ => none

def readMem (s : Spaces τ) (t : τ) (addr : Word) (size : ℕ) : Option (Spaces τ) := do
  let a ← s.space t
  let r ← a.readMem s.memory addr.toNat size
  return s.put s.memory t (some r.2)

def writeMem (s : Spaces τ) (t : τ) (addr : Word) (size : ℕ) (value : Word) : Option (Spaces τ) := do
  let a ← s.space t
  let r ← a.writeMem s.memory addr.toNat size value
  return s.put r.2 t (some r.1)

/-- The host fills a buffer. -/
def store (s : Spaces τ) (addr : ℤ) (bytes : List Byte) : Spaces τ := { s with memory := s.memory.store addr bytes }

/-- The destructor. -/
def destroy (s : Spaces τ) (t : τ) : Option (Spaces τ) :=
  (s.space t).map fun a => s.put (a.free s.memory) t none

inductive Event (τ : Type) where
  | load (t : τ) (exe : Option Executable)
  | readMem (t : τ) (addr : Word) (size : ℕ)
  | writeMem (t : τ) (addr : Word) (size : ℕ) (value : Word)
  | store (addr : ℤ) (bytes : List Byte)
  | destroy (t : τ)

def step (s : Spaces τ) : Event τ → Option (Spaces τ)
  | .load t exe => s.load t exe
  | .readMem t addr size => s.readMem t addr size
  | .writeMem t addr size value => s.writeMem t addr size value
  | .store addr bytes => some (s.store addr bytes)
  | .destroy t => s.destroy t

omit [DecidableEq τ] in
/-- The frames that a live address space maps. -/
def holds (s : Spaces τ) (t : τ) : List ℕ := ((s.space t).map AddrSpace.frames).getD []

omit [DecidableEq τ] in
/-- The frames are owned, and nothing else is marked. -/
structure Sound (s : Spaces τ) : Prop where
  exact : Exact s.memory.frameTableStatus s.holds
  bound : ∀ t, ∀ f ∈ s.holds t, f < numPhysPages
  valid : ∀ t a, s.space t = some a → a.Valid

omit [DecidableEq τ] in
theorem holds_of_some (h : s.space t = some a) : s.holds t = a.frames := by rw [holds, h]; rfl

omit [DecidableEq τ] in
theorem holds_of_none (h : s.space t = none) : s.holds t = [] := by rw [holds, h]; rfl

theorem put_space_self (m : Memory) (o : Option AddrSpace) : (s.put m t o).space t = o := Function.update_self ..

theorem put_space_of_ne (m : Memory) (o : Option AddrSpace) (ne : u ≠ t) : (s.put m t o).space u = s.space u :=
  Function.update_of_ne ne ..

theorem holds_put (m : Memory) (o : Option AddrSpace) :
    (s.put m t o).holds = Function.update s.holds t ((o.map AddrSpace.frames).getD []) := by
  funext u
  by_cases ne : u = t
  · subst ne
    rw [holds, put_space_self, Function.update_self]
  · rw [holds, put_space_of_ne m o ne, Function.update_of_ne ne, holds]

/-- One slot changes, and what it holds is owned. -/
theorem Sound.put (h : s.Sound) {m : Memory} {o : Option AddrSpace} {l : List ℕ}
    (frames : (o.map AddrSpace.frames).getD [] = l) (exact : Exact m.frameTableStatus (Function.update s.holds t l))
    (bound : ∀ f ∈ l, f < numPhysPages) (valid : ∀ b, o = some b → b.Valid) : (s.put m t o).Sound := by
  have holds := holds_put (s := s) (t := t) m o
  rw [frames] at holds
  constructor
  · rw [holds]
    exact exact
  · intro u f mem
    rw [holds] at mem
    by_cases ne : u = t
    · rw [ne, Function.update_self] at mem
      exact bound f mem
    · rw [Function.update_of_ne ne] at mem
      exact h.bound u f mem
  · intro u b some
    by_cases ne : u = t
    · rw [ne, put_space_self] at some
      exact valid b some
    · rw [put_space_of_ne m o ne] at some
      exact h.valid u b some

omit [DecidableEq τ] in
theorem sound_empty (free : s.memory.frameTableStatus = fun _ => false) (none : ∀ t, s.space t = none) : s.Sound := by
  have holds : s.holds = fun _ => [] := funext fun t => holds_of_none (none t)
  constructor
  · rw [holds, free]
    exact exact_nil
  · intro t f mem
    rw [holds] at mem
    exact (List.not_mem_nil mem).elim
  · intro t a some
    rw [none t] at some
    cases some

/-- `Load` changes what its own thread holds. -/
theorem holds_load_of_ne {exe : Option Executable} (hs : s.load t exe = some s') (ne : u ≠ t) :
    s'.holds u = s.holds u := by
  unfold Spaces.load at hs
  split at hs
  · obtain ⟨⟨loaded, m⟩, -, rfl⟩ := Option.map_eq_some_iff.1 hs
    rw [holds_put]
    exact Function.update_of_ne ne ..
  · cases hs

/-- An access keeps what the table maps. -/
theorem access_kept (live : s.space t = some a) {m : Memory} (same : b.mapping = a.mapping)
    (status : m.frameTableStatus = s.memory.frameTableStatus) :
    (s.Sound → (s.put m t (some b)).Sound) ∧ (s.put m t (some b)).holds = s.holds := by
  have frames : b.frames = s.holds t := (AddrSpace.frames_of_mapping same).trans (holds_of_some live).symm
  constructor
  · intro h
    refine h.put frames ?_ (h.bound t) fun c eq => ?_
    · rw [Function.update_eq_self, status]
      exact h.exact
    · obtain rfl := Option.some.inj eq
      exact AddrSpace.valid_of_mapping same (h.valid t a live)
  · rw [holds_put, Option.map_some, Option.getD_some, frames, Function.update_eq_self]

theorem readMem_kept {addr : Word} {size : ℕ} (hs : s.readMem t addr size = some s') :
    (s.Sound → s'.Sound) ∧ s'.holds = s.holds := by
  obtain ⟨a, live, hs⟩ := Option.bind_eq_some_iff.1 hs
  obtain ⟨⟨value, b⟩, read, hs⟩ := Option.bind_eq_some_iff.1 hs
  obtain rfl := Option.some.inj hs
  exact access_kept live (AddrSpace.readMem_mapping read) rfl

theorem writeMem_kept {addr value : Word} {size : ℕ} (hs : s.writeMem t addr size value = some s') :
    (s.Sound → s'.Sound) ∧ s'.holds = s.holds := by
  obtain ⟨a, live, hs⟩ := Option.bind_eq_some_iff.1 hs
  obtain ⟨⟨b, m⟩, written, hs⟩ := Option.bind_eq_some_iff.1 hs
  obtain rfl := Option.some.inj hs
  obtain ⟨same, status⟩ := AddrSpace.writeMem_spec written
  exact access_kept live same status

theorem Sound.load (h : s.Sound) {exe : Option Executable} (hs : s.load t exe = some s') : s'.Sound := by
  unfold Spaces.load at hs
  split at hs
  · rename_i fresh
    obtain ⟨⟨loaded, m⟩, load, rfl⟩ := Option.map_eq_some_iff.1 hs
    cases loaded with
    | none =>
      obtain rfl := AddrSpace.load_none load
      refine h.put rfl ?_ (fun f mem => (List.not_mem_nil mem).elim) fun b eq => by cases eq
      have same : Function.update s.holds t [] = s.holds := Function.update_eq_self_iff.2 (holds_of_none fresh).symm
      exact same.symm ▸ h.exact
    | some a =>
      obtain ⟨valid, nodup, free, marks⟩ := AddrSpace.load_spec load
      refine h.put rfl ?_ (fun f mem => (free f mem).1) fun b eq => ?_
      · exact h.exact.grant (holds_of_none fresh) nodup (fun f mem => (free f mem).2) marks
      · obtain rfl := Option.some.inj eq
        exact valid
  · cases hs

omit [DecidableEq τ] in
theorem Sound.store (h : s.Sound) (addr : ℤ) (bytes : List Byte) : (s.store addr bytes).Sound :=
  ⟨h.exact, h.bound, h.valid⟩

theorem Sound.destroy (h : s.Sound) (hs : s.destroy t = some s') : s'.Sound := by
  obtain ⟨a, live, rfl⟩ := Option.map_eq_some_iff.1 hs
  refine h.put rfl ?_ (fun f mem => (List.not_mem_nil mem).elim) fun b eq => by cases eq
  apply h.exact.release
  intro f
  rw [holds_of_some live]
  exact AddrSpace.free_spec (h.valid t a live) s.memory f

theorem Sound.step (h : s.Sound) {e : Event τ} (hs : s.step e = some s') : s'.Sound := by
  cases e with
  | load t exe => exact h.load hs
  | readMem t addr size => exact (readMem_kept hs).1 h
  | writeMem t addr size value => exact (writeMem_kept hs).1 h
  | store addr bytes =>
    obtain rfl := Option.some.inj hs
    exact h.store addr bytes
  | destroy t => exact h.destroy hs

end Spaces

/-- The runs from the all-free frame table. -/
def spaces (τ : Type) [DecidableEq τ] : System (Spaces τ) (Spaces.Event τ) where
  init s := s.memory.frameTableStatus = (fun _ => false) ∧ ∀ t, s.space t = none
  step s e s' := s.step e = some s'

namespace Spaces

variable {τ : Type} [DecidableEq τ] {s : Spaces τ}

theorem Sound.of_reach (h : Reach (spaces τ) (fun _ _ => True) s) : s.Sound := by
  refine h.invariant Sound ?_ ?_
  · rintro s ⟨free, none⟩
    exact sound_empty free none
  · intro s e s' sound _ hs
    exact sound.step hs

omit [DecidableEq τ] in
/-- The loop of `Load` takes no frame of a live address space, and zeroes no byte of one. -/
theorem Sound.apart (h : s.Sound) {n i : ℕ} {table : List TranslationEntry} {m : Memory}
    (built : s.memory.buildPages n i = some (table, m)) {t : τ} {a : AddrSpace} (live : s.space t = some a) {f : ℕ}
    (mem : f ∈ a.frames) :
    f ∉ table.map (·.physicalPage) ∧ ∀ addr, InFrame f addr → m.mainMemory addr = s.memory.mainMemory addr := by
  have built := AddrSpace.buildPages_spec built
  have marked : s.memory.frameTableStatus f = true := h.exact.marked t f (holds_of_some live ▸ mem)
  have outside : f ∉ table.map (·.physicalPage) := by
    intro taken
    rw [(built.fresh f taken).2] at marked
    cases marked
  refine ⟨outside, fun addr inside => built.kept addr fun g taken inside' => outside ?_⟩
  have same : f = g := by
    unfold InFrame pageSize at inside inside'
    omega
  rwa [same]

/-- **Frame ownership.** -/
theorem frame_ownership (h : Reach (spaces τ) (fun _ _ => True) s) :
    (∀ t a, s.space t = some a → a.frames.Nodup ∧
      ∀ f ∈ a.frames, f < numPhysPages ∧ s.memory.frameTableStatus f = true) ∧
    (∀ t u a b, t ≠ u → s.space t = some a → s.space u = some b → a.frames.Disjoint b.frames) ∧
    (∀ n table m, s.memory.buildPages n 0 = some (table, m) → ∀ t a, s.space t = some a → ∀ f ∈ a.frames,
      f ∉ table.map (·.physicalPage) ∧ ∀ addr, InFrame f addr → m.mainMemory addr = s.memory.mainMemory addr) := by
  have sound := Sound.of_reach h
  refine ⟨fun t a live => ?_, fun t u a b ne live live' => ?_, fun n table m built t a live f mem =>
    sound.apart built live mem⟩
  · have holds := holds_of_some live
    refine ⟨holds ▸ sound.exact.nodup t, fun f mem => ?_⟩
    rw [← holds] at mem
    exact ⟨sound.bound t f mem, sound.exact.marked t f mem⟩
  · rw [← holds_of_some live, ← holds_of_some live']
    exact sound.exact.disjoint t u ne

/-- A NOFF file with a code segment only, behind the 52 bytes of the header. -/
def codeOnly (code : List Word) : Executable :=
  let size : Word := BitVec.ofNat 32 (4 * code.length)
  let words := [noffMagic, 0, 52, size] ++ List.replicate 9 0 ++ code
  ⟨⟨noffMagic, ⟨0, 52, size⟩, ⟨0, 0, 0⟩, ⟨0, 0, 0⟩, ⟨0, 0, 0⟩⟩, encode words.length fun k => words.getD k 0⟩

/-- `addiu $2,$0,SC_Exit`, `addu $4,$0,$0`, `syscall`. -/
def exits : Executable := codeOnly [0x24020001, 0x00002021, 0x0000000c, 0]

/-- `addiu $2,$0,SC_Open`, `addu $4,$0,$0`, `syscall`, and `SC_Exit`. -/
def opens : Executable := codeOnly [0x24020006, 0x00002021, 0x0000000c, 0x24020001, 0x0000000c, 0]

def start {τ : Type} : Spaces τ := ⟨⟨fun _ => false, fun _ => 0⟩, fun _ => none⟩

/-- The two programs are loaded. -/
def loadTwo : List (Event Bool) := [.load false (some exits), .load true (some opens)]

theorem loadTwo_isSome : (loadTwo.foldlM step start).isSome := by decide +kernel

def twoLoaded : Spaces Bool := (loadTwo.foldlM step start).get loadTwo_isSome

theorem reach_twoLoaded : Reach (spaces Bool) (fun _ _ => True) twoLoaded := by
  have begin : Reach (spaces Bool) (fun _ _ => True) start := .init ⟨rfl, fun _ => rfl⟩
  exact begin.run step (fun _ _ _ done => done) loadTwo (Option.some_get loadTwo_isSome).symm

theorem frame_ownership_twoLoaded :
    ∃ a b, twoLoaded.space false = some a ∧ twoLoaded.space true = some b ∧ a.frames.Disjoint b.frames := by
  have first : (twoLoaded.space false).isSome := by decide +kernel
  have second : (twoLoaded.space true).isSome := by decide +kernel
  obtain ⟨a, ha⟩ := Option.isSome_iff_exists.1 first
  obtain ⟨b, hb⟩ := Option.isSome_iff_exists.1 second
  exact ⟨a, b, ha, hb, (frame_ownership reach_twoLoaded).2.1 false true a b (by decide) ha hb⟩

example : (twoLoaded.space true).map AddrSpace.frames = some [9, 10, 11, 12, 13, 14, 15, 16, 17] := by decide +kernel

end Spaces

end Nachos.Mp2
