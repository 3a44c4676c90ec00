import Nachos.Base.Ownership
import Nachos.Base.Transition
import Nachos.Mp2.AddrSpace

/-!
# Frames belong to one address space

The frames that the live address spaces map are owned: each is in one page table only, once,
and marked in the frame table; and the marked ones are all owned. `Load` takes frames that are
free, accesses change no mapping, and the destructor gives back the frames of its own table.
-/

namespace Nachos.Mp2
open Bytes Transition Ownership

/-- The bytes of a frame. -/
def InFrame (frame : ℕ) (a : ℤ) : Prop := frame * pageSize ≤ a ∧ a < frame * pageSize + pageSize

namespace AddrSpace

variable {s s' : AddrSpace} {m m' : Memory} {file : List Byte} {seg : Segment}

/-- What accesses leave alone in the table. -/
def mapping (s : AddrSpace) : List (ℕ × Bool) := s.pageTable.map fun e => (e.physicalPage, e.valid)

/-- The physical pages of the table. -/
def frames (s : AddrSpace) : List ℕ := s.pageTable.map (·.physicalPage)

theorem frames_eq_map (s : AddrSpace) : s.frames = s.mapping.map Prod.fst := by
  rw [frames, mapping, List.map_map]
  rfl

theorem frames_of_mapping (h : s'.mapping = s.mapping) : s'.frames = s.frames := by
  rw [frames_eq_map, frames_eq_map, h]

theorem numPages_eq (s : AddrSpace) : s.numPages = s.frames.length := (List.length_map ..).symm

theorem mapping_modify {f : TranslationEntry → TranslationEntry} (vpn : ℕ)
    (keeps : ∀ e, ((f e).physicalPage, (f e).valid) = (e.physicalPage, e.valid)) :
    (s.modify vpn f).mapping = s.mapping := by
  apply List.ext_getElem?
  intro i
  rw [mapping, mapping, modify, List.getElem?_map, List.getElem?_map, List.getElem?_modify]
  cases s.pageTable[i]? with
  | none => rfl
  | some e =>
    apply congrArg some
    by_cases same : vpn = i
    · simpa [same] using keeps e
    · simp [same]

theorem mapping_touch (vpn : ℕ) (writing : Bool) : (s.touch vpn writing).mapping = s.mapping :=
  mapping_modify vpn fun _ => rfl

theorem translate_mapping {vaddr p : ℕ} {writing : Bool} (h : s.translate vaddr writing = .ok (p, s')) :
    s'.mapping = s.mapping := by
  unfold translate at h
  split at h
  · cases h
  · split_ifs at h
    obtain ⟨-, rfl⟩ := Prod.mk.inj (Except.ok.inj h)
    exact mapping_touch _ _

theorem machineTranslate_mapping {addr size p : ℕ} {writing : Bool}
    (h : s.machineTranslate addr size writing = .ok (p, s')) : s'.mapping = s.mapping := by
  unfold machineTranslate at h
  split_ifs at h
  split at h
  · cases h
  · split_ifs at h
    obtain ⟨-, rfl⟩ := Prod.mk.inj (Except.ok.inj h)
    exact mapping_touch _ _

theorem readMem_mapping {addr size : ℕ} {value : Word} (h : s.readMem m addr size = some (value, s')) :
    s'.mapping = s.mapping := by
  unfold readMem at h
  split at h
  · cases h
  · rename_i p after translated
    have same := machineTranslate_mapping translated
    split_ifs at h <;>
    · obtain ⟨-, rfl⟩ := Prod.mk.inj (Option.some.inj h)
      exact same

theorem writeMem_spec {addr size : ℕ} {value : Word} (h : s.writeMem m addr size value = some (s', m')) :
    s'.mapping = s.mapping ∧ m'.frameTableStatus = m.frameTableStatus := by
  unfold writeMem at h
  split at h
  · cases h
  · rename_i p after translated
    have same := machineTranslate_mapping translated
    split_ifs at h
    obtain ⟨rfl, rfl⟩ := Prod.mk.inj (Option.some.inj h)
    exact ⟨same, rfl⟩

theorem readAt_status {into numBytes : ℕ} {position : ℤ} (h : m.readAt file into numBytes position = some m') :
    m'.frameTableStatus = m.frameTableStatus := by
  unfold Memory.readAt at h
  split_ifs at h
  obtain rfl := Option.some.inj h
  rfl

/-- Copying a segment changes main memory and use bits only. -/
theorem copyPieces_spec {n i : ℕ} (h : copyPieces file seg n i s m = some (s', m')) :
    s'.mapping = s.mapping ∧ m'.frameTableStatus = m.frameTableStatus := by
  induction n generalizing i s m with
  | zero =>
    obtain ⟨rfl, rfl⟩ := Prod.mk.inj (Option.some.inj h)
    exact ⟨rfl, rfl⟩
  | succ n ih =>
    simp only [copyPieces] at h
    split at h
    · cases h
    · rename_i p after translated
      split at h
      · cases h
      · rename_i filled read
        obtain ⟨mapping, status⟩ := ih h
        exact ⟨mapping.trans (translate_mapping translated), status.trans (readAt_status read)⟩

theorem copySegment_spec (h : copySegment file seg s m = some (s', m')) :
    s'.mapping = s.mapping ∧ m'.frameTableStatus = m.frameTableStatus := by
  unfold copySegment at h
  split_ifs at h
  · exact copyPieces_spec h
  · obtain ⟨rfl, rfl⟩ := Prod.mk.inj (Option.some.inj h)
    exact ⟨rfl, rfl⟩

theorem markReadOnly_mapping {n i : ℕ} (h : markReadOnly seg n i s = some s') : s'.mapping = s.mapping := by
  induction n generalizing i s with
  | zero =>
    obtain rfl := Option.some.inj h
    rfl
  | succ n ih =>
    simp only [markReadOnly] at h
    split_ifs at h
    exact (ih h).trans (mapping_modify _ fun _ => rfl)

theorem markSegment_mapping (h : markSegment seg s = some s') : s'.mapping = s.mapping := by
  unfold markSegment at h
  split_ifs at h
  · exact markReadOnly_mapping h
  · obtain rfl := Option.some.inj h
    rfl

theorem copySegments_spec {exe : Executable} (h : copySegments exe s m = some (s', m')) :
    s'.mapping = s.mapping ∧ m'.frameTableStatus = m.frameTableStatus := by
  unfold copySegments at h
  obtain ⟨⟨s₁, m₁⟩, code, h⟩ := Option.bind_eq_some_iff.1 h
  obtain ⟨⟨s₂, m₂⟩, init, h⟩ := Option.bind_eq_some_iff.1 h
  obtain ⟨s₃, marked, last⟩ := Option.bind_eq_some_iff.1 h
  obtain ⟨map₁, status₁⟩ := copySegment_spec code
  obtain ⟨map₂, status₂⟩ := copySegment_spec init
  obtain ⟨map₄, status₄⟩ := copySegment_spec last
  have map₃ := markSegment_mapping marked
  exact ⟨map₄.trans (map₃.trans (map₂.trans map₁)), status₄.trans (status₂.trans status₁)⟩

/-! ## The page table is built -/

/-- The table that the loop of `Load` builds, and the frames it takes. -/
structure Built (m : Memory) (n : ℕ) (table : List TranslationEntry) (m' : Memory) : Prop where
  length : table.length = n
  nodup : (table.map (·.physicalPage)).Nodup
  fresh : ∀ f ∈ table.map (·.physicalPage), f < numPhysPages ∧ m.frameTableStatus f = false
  marks : ∀ f, m'.frameTableStatus f = true ↔ m.frameTableStatus f = true ∨ f ∈ table.map (·.physicalPage)
  valid : ∀ e ∈ table, e.valid = true
  kept : ∀ a, (∀ f ∈ table.map (·.physicalPage), ¬ InFrame f a) → m'.mainMemory a = m.mainMemory a

theorem findFrame_spec {f : ℕ} (h : m.findFrame = some (f, m')) :
    f < numPhysPages ∧ m.frameTableStatus f = false ∧
      m' = { m with frameTableStatus := Function.update m.frameTableStatus f true } := by
  unfold Memory.findFrame at h
  split at h
  · rename_i i found
    obtain ⟨rfl, rfl⟩ := Prod.mk.inj (Option.some.inj h)
    exact ⟨List.mem_range.1 (List.mem_of_find?_eq_some found), by simpa using List.find?_some found, rfl⟩
  · cases h

theorem store_of_not_mem {addr a : ℤ} {bytes : List Byte} (h : ¬ (addr ≤ a ∧ a < addr + bytes.length)) :
    (m.store addr bytes).mainMemory a = m.mainMemory a := if_neg h

theorem bzero_of_not_inFrame {f : ℕ} {a : ℤ} (h : ¬ InFrame f a) : (m.bzero f).mainMemory a = m.mainMemory a := by
  apply store_of_not_mem
  rwa [List.length_replicate]

theorem buildPages_spec {n i : ℕ} {table : List TranslationEntry} (h : m.buildPages n i = some (table, m')) :
    Built m n table m' := by
  induction n generalizing m i table with
  | zero =>
    obtain ⟨rfl, rfl⟩ := Prod.mk.inj (Option.some.inj h)
    exact ⟨rfl, List.nodup_nil, by simp, by simp, by simp, fun _ _ => rfl⟩
  | succ n ih =>
    obtain ⟨⟨f, m₁⟩, found, h⟩ := Option.bind_eq_some_iff.1 h
    obtain ⟨⟨rest, m₂⟩, built, h⟩ := Option.bind_eq_some_iff.1 h
    obtain ⟨rfl, rfl⟩ := Prod.mk.inj (Option.some.inj h)
    obtain ⟨bound, free, rfl⟩ := findFrame_spec found
    have ih := ih built
    have status : ((Memory.mk (Function.update m.frameTableStatus f true) m.mainMemory).bzero f).frameTableStatus =
        Function.update m.frameTableStatus f true := rfl
    have other {g : ℕ} (mem : g ∈ rest.map (·.physicalPage)) : g ≠ f ∧ m.frameTableStatus g = false := by
      have unused := (ih.fresh g mem).2
      rw [status] at unused
      by_cases ne : g = f
      · rw [ne, Function.update_self] at unused
        cases unused
      · rw [Function.update_of_ne ne] at unused
        exact ⟨ne, unused⟩
    constructor
    · rw [List.length_cons, ih.length]
    · rw [List.map_cons, List.nodup_cons]
      exact ⟨fun mem => (other mem).1 rfl, ih.nodup⟩
    · intro g mem
      rcases List.mem_cons.1 mem with rfl | mem
      · exact ⟨bound, free⟩
      · exact ⟨(ih.fresh g mem).1, (other mem).2⟩
    · intro g
      rw [ih.marks, status, List.map_cons, List.mem_cons]
      by_cases ne : g = f
      · rw [ne, Function.update_self]
        simp
      · rw [Function.update_of_ne ne]
        simp [ne]
    · intro e mem
      rcases List.mem_cons.1 mem with rfl | mem
      · rfl
      · exact ih.valid e mem
    · intro a outside
      rw [ih.kept a fun g mem => outside g (List.mem_cons_of_mem _ mem)]
      exact bzero_of_not_inFrame (outside f List.mem_cons_self)

/-- All entries of the table are valid. -/
def Valid (s : AddrSpace) : Prop := ∀ e ∈ s.mapping, e.2 = true

theorem valid_of_mapping (h : s'.mapping = s.mapping) (valid : s.Valid) : s'.Valid := by
  unfold Valid
  rwa [h]

/-- **What `Load` leaves.** -/
theorem load_spec {exe : Option Executable} (h : load m exe = some (some s, m')) :
    s.Valid ∧ s.frames.Nodup ∧ (∀ f ∈ s.frames, f < numPhysPages ∧ m.frameTableStatus f = false) ∧
      ∀ f, m'.frameTableStatus f = true ↔ m.frameTableStatus f = true ∨ f ∈ s.frames := by
  cases exe with
  | none =>
    obtain ⟨wrong, -⟩ := Prod.mk.inj (Option.some.inj h)
    cases wrong
  | some exe =>
    unfold load at h
    simp only at h
    split_ifs at h
    obtain ⟨⟨table, m₁⟩, built, h⟩ := Option.bind_eq_some_iff.1 h
    obtain ⟨⟨s₁, m₂⟩, copied, h⟩ := Option.bind_eq_some_iff.1 h
    obtain ⟨eq, rfl⟩ := Prod.mk.inj (Option.some.inj h)
    obtain rfl := Option.some.inj eq
    obtain ⟨mapping, status⟩ := copySegments_spec copied
    have built := buildPages_spec built
    have frames : s₁.frames = table.map (·.physicalPage) := frames_of_mapping mapping
    rw [frames, status]
    refine ⟨valid_of_mapping mapping ?_, built.nodup, built.fresh, built.marks⟩
    intro e mem
    obtain ⟨entry, member, rfl⟩ := List.mem_map.1 mem
    exact built.valid entry member

theorem load_none {exe : Option Executable} (h : load m exe = some (none, m')) : m' = m := by
  cases exe with
  | none =>
    obtain ⟨-, rfl⟩ := Prod.mk.inj (Option.some.inj h)
    rfl
  | some exe =>
    unfold load at h
    simp only at h
    split_ifs at h
    obtain ⟨⟨table, m₁⟩, -, h⟩ := Option.bind_eq_some_iff.1 h
    obtain ⟨⟨s₁, m₂⟩, -, h⟩ := Option.bind_eq_some_iff.1 h
    obtain ⟨wrong, -⟩ := Prod.mk.inj (Option.some.inj h)
    cases wrong

/-- The destructor clears the marks of the table's frames. -/
theorem free_spec (valid : s.Valid) (m : Memory) (f : ℕ) :
    (s.free m).frameTableStatus f = true ↔ m.frameTableStatus f = true ∧ f ∉ s.frames := by
  have walk (l : List TranslationEntry) (status : ℕ → Bool) (valid : ∀ e ∈ l, e.valid = true) :
      l.foldl (fun status e => if e.valid then Function.update status e.physicalPage false else status) status f = true ↔
        status f = true ∧ f ∉ l.map (·.physicalPage) := by
    induction l generalizing status with
    | nil => simp
    | cons e l ih =>
      rw [List.foldl_cons, ih _ fun e' mem => valid e' (List.mem_cons_of_mem _ mem), valid e List.mem_cons_self,
        if_pos rfl, List.map_cons, List.mem_cons, not_or]
      by_cases same : f = e.physicalPage
      · rw [same, Function.update_self]
        simp
      · rw [Function.update_of_ne same]
        simp [same]
  exact walk s.pageTable m.frameTableStatus fun e mem => valid _ (List.mem_map_of_mem mem)

end AddrSpace

end Nachos.Mp2
