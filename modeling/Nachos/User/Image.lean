import Nachos.Mp2.Handler
import Nachos.Mp2.Placing
import Nachos.User.Bus

/-!
# The memory a program believes it has

A program sees pages from address zero on, some of them read-only. Main memory behind its page
table answers every access like this image, whatever frames `Load` has given it, and an access
leaves the frames of the others alone.
-/

namespace Nachos.User
open Bytes Nachos.Mp2 Nachos.Mp3

/-- `Machine::Translate` hands on its exception. -/
def raised : Mp2.ExceptionType → Mp3.ExceptionType
  | .pageFault => .pageFaultException
  | .readOnly => .readOnlyException
  | .busError => .busErrorException
  | .addressError => .addressErrorException

/-- `ReadMem` and `WriteMem` of the machine, with the running page table. -/
def machineBus : Bus (AddrSpace × Memory) where
  readMem s addr size :=
    match s.1.machineTranslate addr.toNat size.bytes false with
    | .error e => .error (raised e)
    | .ok (p, a) => .ok (size.value fun j => s.2.mainMemory (p + j), (a, s.2))
  writeMem s addr size value :=
    match s.1.machineTranslate addr.toNat size.bytes true with
    | .error e => .error (raised e)
    | .ok (p, a) => .ok (a, s.2.store p (tabulate size.bytes (byteOf value)))

/-- The memory of one program. -/
@[ext] structure Image where
  numPages : ℕ
  readOnly : ℕ → Bool
  bytes : ℕ → Byte

namespace Image

/-- The exception of an access. -/
def check (im : Image) (addr : ℕ) (size : Size) (writing : Bool) : Option Mp3.ExceptionType :=
  if addr % size.bytes ≠ 0 then some .addressErrorException
  else if im.numPages ≤ addr / pageSize then some .addressErrorException
  else if im.readOnly (addr / pageSize) ∧ writing then some .readOnlyException
  else none

def write (im : Image) (addr : ℕ) (n : ℕ) (f : ℕ → Byte) : Image :=
  { im with bytes := fun v => if addr ≤ v ∧ v < addr + n then f (v - addr) else im.bytes v }

end Image

/-- The accesses of a program that has its memory to itself. -/
def imageBus : Bus Image where
  readMem im addr size :=
    match im.check addr.toNat size false with
    | some e => .error e
    | none => .ok (size.value fun j => im.bytes (addr.toNat + j), im)
  writeMem im addr size value :=
    match im.check addr.toNat size true with
    | some e => .error e
    | none => .ok (im.write addr.toNat size.bytes (byteOf value))

/-! ## The image of an address space -/

/-- The image that a page table makes of main memory. -/
def imageOf (a : AddrSpace) (m : Memory) : Image where
  numPages := a.numPages
  readOnly p := ((a.pageTable[p]?).map TranslationEntry.readOnly).getD false
  bytes v := if v / pageSize < a.numPages then m.mainMemory (AddrSpace.physAddr a.frames v) else 0

theorem imageOf_of_lt {a : AddrSpace} {v : ℕ} (m : Memory) (inside : v / pageSize < a.numPages) :
    (imageOf a m).bytes v = m.mainMemory (AddrSpace.physAddr a.frames v) := if_pos inside

theorem imageOf_of_not_lt {a : AddrSpace} {v : ℕ} (m : Memory) (outside : ¬ v / pageSize < a.numPages) :
    (imageOf a m).bytes v = 0 := if_neg outside

/-- A page table with its frames to itself. -/
structure Owner (a : AddrSpace) : Prop where
  valid : a.Valid
  nodup : a.frames.Nodup
  bound : ∀ f ∈ a.frames, f < numPhysPages

theorem getElem?_readOnly (a : AddrSpace) (p : ℕ) :
    (a.pageTable[p]?).map TranslationEntry.readOnly = (a.protection[p]?).map Prod.snd := by
  rw [AddrSpace.protection, List.getElem?_map, Option.map_map]
  rfl

/-- An image is given by the frames, the read-only bits and the bytes in the frames. -/
theorem imageOf_congr {a a' : AddrSpace} {m m' : Memory} (same : a'.protection = a.protection)
    (bytes : ∀ v, v / pageSize < a.numPages → m'.mainMemory (AddrSpace.physAddr a.frames v) = m.mainMemory (AddrSpace.physAddr a.frames v)) :
    imageOf a' m' = imageOf a m := by
  have frames := AddrSpace.frames_of_protection same
  have pages : a'.numPages = a.numPages := by rw [AddrSpace.numPages_eq, frames, AddrSpace.numPages_eq]
  unfold imageOf
  congr 1
  · funext p
    rw [getElem?_readOnly, getElem?_readOnly, same]
  · funext v
    rw [pages, frames]
    split
    · exact bytes v ‹_›
    · rfl

/-- An address lies in one frame. -/
theorem inFrame_unique {f g : ℕ} {x : ℤ} (hf : InFrame f x) (hg : InFrame g x) : f = g := by
  unfold InFrame pageSize at hf hg
  omega

/-- What changes in the frames of one program is not seen in those of another. -/
theorem imageOf_apart {a b : AddrSpace} {m m' : Memory} (disjoint : a.frames.Disjoint b.frames)
    (outside : ∀ x, (∀ f ∈ a.frames, ¬ InFrame f x) → m'.mainMemory x = m.mainMemory x) : imageOf b m' = imageOf b m := by
  apply imageOf_congr rfl
  intro v inside
  apply outside
  intro f mem there
  have here := inFrame_physAddr b.frames v
  obtain rfl := inFrame_unique there here
  exact disjoint mem (getD_mem (AddrSpace.numPages_eq b ▸ inside))

/-- What an access keeps: frames, read-only bits and what lies outside of the frames. -/
structure Kept (a : AddrSpace) (m : Memory) (s : AddrSpace × Memory) : Prop where
  mapping : s.1.mapping = a.mapping
  protection : s.1.protection = a.protection
  status : s.2.frameTableStatus = m.frameTableStatus
  outside : ∀ x, (∀ f ∈ a.frames, ¬ InFrame f x) → s.2.mainMemory x = m.mainMemory x

variable {a a' : AddrSpace} {m m' : Memory} {v p : ℕ} {s : AddrSpace × Memory}

theorem Kept.refl (a : AddrSpace) (m : Memory) : Kept a m (a, m) := ⟨rfl, rfl, rfl, fun _ _ => rfl⟩

theorem Kept.frames (h : Kept a m s) : s.1.frames = a.frames := AddrSpace.frames_of_mapping h.mapping

theorem Owner.of_kept (owner : Owner a) (h : Kept a m s) : Owner s.1 := by
  constructor
  · exact AddrSpace.valid_of_mapping h.mapping owner.valid
  · exact h.frames ▸ owner.nodup
  · exact h.frames ▸ owner.bound

/-- The frame of a page. -/
theorem physAddr_of_entry {e : TranslationEntry} (entry : a.pageTable[v / pageSize]? = some e) :
    AddrSpace.physAddr a.frames v = e.physicalPage * pageSize + v % pageSize := by
  have frame : a.frames.getD (v / pageSize) 0 = e.physicalPage := by
    rw [AddrSpace.frames, List.getD_eq_getElem?_getD, List.getElem?_map, entry]
    rfl
  rw [AddrSpace.physAddr, frame]

/-- The bytes of an access lie on one page. -/
theorem physAddr_add {size : Size} {j : ℕ} (aligned : v % size.bytes = 0) (hj : j < size.bytes) :
    (v + j) / pageSize = v / pageSize ∧ AddrSpace.physAddr a.frames (v + j) = AddrSpace.physAddr a.frames v + j := by
  have small : v % 128 + j < 128 := by
    cases size <;> simp only [Size.bytes] at aligned hj <;> omega
  have page : (v + j) / pageSize = v / pageSize := by
    rw [page_eq]
    omega
  refine ⟨page, ?_⟩
  rw [AddrSpace.physAddr, AddrSpace.physAddr, page, page_eq]
  omega

/-- What `Translate` answers, in terms of the image. -/
theorem machineTranslate_eq (owner : Owner a) (m : Memory) (v : ℕ) (size : Size) (writing : Bool) :
    match (imageOf a m).check v size writing with
    | some e => ∃ e', a.machineTranslate v size.bytes writing = .error e' ∧ raised e' = e
    | none => v % size.bytes = 0 ∧ v / pageSize < a.numPages ∧
      a.machineTranslate v size.bytes writing = .ok (AddrSpace.physAddr a.frames v, a.touch (v / pageSize) writing) := by
  have align : ((size.bytes = 4 ∧ v % 4 ≠ 0) ∨ (size.bytes = 2 ∧ v % 2 ≠ 0)) ↔ v % size.bytes ≠ 0 := by
    cases size with
    | byte => simp [Size.bytes, Nat.mod_one]
    | half => simp [Size.bytes]
    | word => simp [Size.bytes]
  unfold AddrSpace.machineTranslate Image.check
  simp only [align]
  by_cases skew : v % size.bytes ≠ 0
  · rw [if_pos skew, if_pos skew]
    exact ⟨_, rfl, rfl⟩
  rw [if_neg skew, if_neg skew]
  have pages : (imageOf a m).numPages = a.pageTable.length := rfl
  cases entry : a.pageTable[v / pageSize]? with
  | none =>
    have behind := List.getElem?_eq_none_iff.1 entry
    rw [pages, if_pos behind]
    exact ⟨_, rfl, rfl⟩
  | some e =>
    have inside : v / pageSize < a.pageTable.length := (List.getElem?_eq_some_iff.1 entry).1
    have valid : e.valid = true := owner.valid (e.physicalPage, e.valid) (List.mem_map_of_mem (List.mem_of_getElem? entry))
    have small : e.physicalPage < numPhysPages := owner.bound _ (List.mem_map_of_mem (List.mem_of_getElem? entry))
    have bit : (imageOf a m).readOnly (v / pageSize) = e.readOnly := by
      simp only [imageOf, entry, Option.map_some, Option.getD_some]
    rw [pages, if_neg (Nat.not_le.2 inside), bit]
    dsimp only
    rw [if_neg (not_not.2 valid)]
    by_cases refused : e.readOnly = true ∧ writing = true
    · rw [if_pos refused, if_pos refused]
      exact ⟨_, rfl, rfl⟩
    · rw [if_neg refused, if_neg refused, if_neg (Nat.not_le.2 small), physAddr_of_entry entry]
      exact ⟨not_not.1 skew, inside, rfl⟩

theorem Kept.touch (h : Kept a m s) (vpn : ℕ) (writing : Bool) : Kept a m (s.1.touch vpn writing, s.2) where
  mapping := (AddrSpace.mapping_touch vpn writing).trans h.mapping
  protection := (AddrSpace.protection_touch vpn writing).trans h.protection
  status := h.status
  outside := h.outside

/-- The bytes of an access as the program sees them. -/
theorem mainMemory_eq (m : Memory) {size : Size} {j : ℕ} (aligned : v % size.bytes = 0) (inside : v / pageSize < a.numPages)
    (hj : j < size.bytes) : m.mainMemory (AddrSpace.physAddr a.frames v + j) = (imageOf a m).bytes (v + j) := by
  obtain ⟨page, place⟩ := physAddr_add (a := a) aligned hj
  have here : (v + j) / pageSize < a.numPages := page ▸ inside
  rw [imageOf_of_lt m here, place, Int.natCast_add]

/-- A store of the machine is a store into the image. -/
theorem imageOf_store (owner : Owner a) (m : Memory) {size : Size} (aligned : v % size.bytes = 0) (inside : v / pageSize < a.numPages)
    (f : ℕ → Byte) : imageOf a (m.store (AddrSpace.physAddr a.frames v) (tabulate size.bytes f)) =
      (imageOf a m).write v size.bytes f := by
  refine congrArg (Image.mk _ _) (funext fun w => ?_)
  have len : (tabulate size.bytes f).length = size.bytes := length_tabulate _ _
  have pages (u : ℕ) (hu : u / pageSize < a.numPages) : u < a.frames.length * pageSize := by
    rw [AddrSpace.numPages_eq] at hu
    exact (Nat.div_lt_iff_lt_mul (by decide)).1 hu
  by_cases here : w / pageSize < a.numPages
  · rw [imageOf_of_lt m here, if_pos here]
    by_cases hit : v ≤ w ∧ w < v + size.bytes
    · obtain ⟨j, rfl⟩ := Nat.le.dest hit.1
      have hj : j < size.bytes := by omega
      rw [if_pos hit, (physAddr_add aligned hj).2, Int.natCast_add, Memory.mainMemory_store (by rwa [len]),
        getD_tabulate f hj, Nat.add_sub_cancel_left]
    · rw [if_neg hit]
      apply AddrSpace.store_of_not_mem
      rintro ⟨low, high⟩
      rw [len] at high
      obtain ⟨j, place⟩ := Nat.le.dest (Int.ofNat_le.1 low)
      have hj : j < size.bytes := by omega
      obtain ⟨page, there⟩ := physAddr_add (a := a) aligned hj
      have same := physAddr_inj owner.nodup (pages w here) (pages (v + j) (page ▸ inside)) (place.symm.trans there.symm)
      omega
  · rw [imageOf_of_not_lt m here, if_neg here]
    split
    · rename_i hit
      obtain ⟨j, rfl⟩ := Nat.le.dest hit.1
      have page := (physAddr_add (a := a) (j := j) aligned (by omega)).1
      exact absurd (page ▸ inside) here
    · rfl

/-- A store goes to a frame of the program. -/
theorem Kept.store (h : Kept a m s) {size : Size} (aligned : v % size.bytes = 0) (inside : v / pageSize < s.1.numPages)
    (f : ℕ → Byte) : Kept a m (s.1, s.2.store (AddrSpace.physAddr s.1.frames v) (tabulate size.bytes f)) := by
  refine ⟨h.mapping, h.protection, h.status, fun x outside => ?_⟩
  rw [← h.outside x outside]
  apply AddrSpace.store_of_not_mem
  rintro ⟨low, high⟩
  rw [length_tabulate] at high
  obtain ⟨j, rfl⟩ := Int.le.dest low
  have hj : j < size.bytes := by omega
  obtain ⟨page, place⟩ := physAddr_add (a := s.1) aligned hj
  have frame := inFrame_physAddr s.1.frames (v + j)
  rw [place, page, Int.natCast_add] at frame
  have mem : s.1.frames.getD (v / pageSize) 0 ∈ s.1.frames := getD_mem (AddrSpace.numPages_eq s.1 ▸ inside)
  exact outside _ (h.frames ▸ mem) frame

/-! ## Buffers that the host fills -/

/-- Where the page table maps a byte to. -/
theorem phys_eq (owner : Owner a) {x : ℤ} (maps : a.phys v = some x) : v / pageSize < a.numPages ∧ x = AddrSpace.physAddr a.frames v := by
  have translated := machineTranslate_eq owner ⟨fun _ => false, fun _ => 0⟩ v .byte false
  unfold AddrSpace.phys at maps
  split at translated
  · obtain ⟨e', error, -⟩ := translated
    rw [Size.bytes] at error
    rw [error] at maps
    cases maps
  · obtain ⟨-, inside, ok⟩ := translated
    rw [Size.bytes] at ok
    rw [ok] at maps
    exact ⟨inside, (Option.some.inj maps).symm⟩

/-- The host fills a buffer where the program has it. -/
theorem imageOf_fill (owner : Owner a) (m : Memory) {addr : Word} {bytes : List Byte}
    (here : ∀ k < bytes.length, a.phys (addr.toNat + k) = some (addr.toInt + k)) :
    imageOf a (m.store addr.toInt bytes) = (imageOf a m).write addr.toNat bytes.length fun i => bytes.getD i 0 := by
  refine congrArg (Image.mk _ _) (funext fun w => ?_)
  have pages (u : ℕ) (hu : u / pageSize < a.numPages) : u < a.frames.length * pageSize := by
    rw [AddrSpace.numPages_eq] at hu
    exact (Nat.div_lt_iff_lt_mul (by decide)).1 hu
  by_cases inside : w / pageSize < a.numPages
  · rw [imageOf_of_lt m inside, if_pos inside]
    by_cases hit : addr.toNat ≤ w ∧ w < addr.toNat + bytes.length
    · obtain ⟨k, rfl⟩ := Nat.le.dest hit.1
      have hk : k < bytes.length := by omega
      rw [if_pos hit, ← (phys_eq owner (here k hk)).2, Memory.mainMemory_store hk, Nat.add_sub_cancel_left]
    · rw [if_neg hit]
      apply AddrSpace.store_of_not_mem
      rintro ⟨low, high⟩
      obtain ⟨k, place⟩ := Int.le.dest low
      have hk : k < bytes.length := by omega
      obtain ⟨there, mapped⟩ := phys_eq owner (here k hk)
      have same : (AddrSpace.physAddr a.frames w : ℤ) = AddrSpace.physAddr a.frames (addr.toNat + k) := place.symm.trans mapped
      have := physAddr_inj owner.nodup (pages w inside) (pages _ there) (Int.ofNat_inj.1 same)
      omega
  · rw [imageOf_of_not_lt m inside, if_neg inside]
    split
    · rename_i hit
      obtain ⟨k, rfl⟩ := Nat.le.dest hit.1
      exact absurd (phys_eq owner (here k (by omega))).1 inside
    · rfl

/-- Such a buffer is in frames of the program. -/
theorem store_outside (owner : Owner a) (m : Memory) {addr : Word} {bytes : List Byte}
    (here : ∀ k < bytes.length, a.phys (addr.toNat + k) = some (addr.toInt + k)) {x : ℤ} (outside : ∀ f ∈ a.frames, ¬ InFrame f x) :
    (m.store addr.toInt bytes).mainMemory x = m.mainMemory x := by
  apply AddrSpace.store_of_not_mem
  rintro ⟨low, high⟩
  obtain ⟨k, rfl⟩ := Int.le.dest low
  obtain ⟨inside, mapped⟩ := phys_eq owner (here k (by omega))
  have frame := inFrame_physAddr a.frames (addr.toNat + k)
  rw [← mapped] at frame
  exact outside _ (getD_mem (AddrSpace.numPages_eq a ▸ inside)) frame

/-- **A system call that respects the address spaces** leaves the bytes it moves in the image of its
program, and the images of the others as they were. -/
theorem imageOf_handled {fs fs' : Mp1.FileSystem} {c : Syscall} {bytes : List Byte} {r : ℤ} {spaces : Spaces ℕ} {i : ℕ} (owner : Owner a)
    (h : Handles spaces.memory fs c bytes r m' fs') (respects : Respects spaces fs i a c r) :
    imageOf a m' = (imageOf a spaces.memory).write c.pointer.toNat bytes.length (fun k => bytes.getD k 0) ∧
      ∀ j b, j ≠ i → spaces.space j = some b → imageOf b m' = imageOf b spaces.memory := by
  constructor
  · rw [h.eq_store]
    exact imageOf_fill owner _ fun k bound => h.mapped respects bound
  · intro j b ne live
    apply imageOf_congr rfl
    intro v inside
    exact h.others respects ne live (getD_mem (AddrSpace.numPages_eq b ▸ inside)) (inFrame_physAddr b.frames v)

/-- **Main memory behind the page table answers like the image.** -/
theorem machineBus_hom (owner : Owner a) (m : Memory) :
    machineBus.Hom imageBus (fun s => imageOf s.1 s.2) (Kept a m) := by
  have touched (s : AddrSpace × Memory) (m' : Memory) (vpn : ℕ) (writing : Bool) :
      imageOf (s.1.touch vpn writing) m' = imageOf s.1 m' :=
    imageOf_congr (AddrSpace.protection_touch vpn writing) fun _ _ => rfl
  constructor
  · intro s addr size kept
    have translated := machineTranslate_eq (owner.of_kept kept) s.2 addr.toNat size false
    simp only [imageBus, machineBus]
    split at translated
    · obtain ⟨e', error, rfl⟩ := translated
      rw [error]
      rfl
    · obtain ⟨aligned, inside, ok⟩ := translated
      rw [ok]
      have value : size.value (fun j => (imageOf s.1 s.2).bytes (addr.toNat + j)) =
          size.value fun j => s.2.mainMemory (AddrSpace.physAddr s.1.frames addr.toNat + j) :=
        Size.value_congr fun j hj => (mainMemory_eq s.2 aligned inside hj).symm
      simp only [Except.map, Prod.map, id_eq, touched]
      rw [value]
  · intro s addr size value kept
    have translated := machineTranslate_eq (owner.of_kept kept) s.2 addr.toNat size true
    simp only [imageBus, machineBus]
    split at translated
    · obtain ⟨e', error, rfl⟩ := translated
      rw [error]
      rfl
    · obtain ⟨aligned, inside, ok⟩ := translated
      rw [ok]
      simp only [Except.map, touched]
      rw [imageOf_store (owner.of_kept kept) s.2 aligned inside]
  · intro s addr size value s' kept read
    have translated := machineTranslate_eq (owner.of_kept kept) s.2 addr.toNat size false
    simp only [machineBus] at read
    split at translated
    · obtain ⟨e', error, -⟩ := translated
      rw [error] at read
      cases read
    · obtain ⟨-, -, ok⟩ := translated
      rw [ok] at read
      cases read
      exact kept.touch _ _
  · intro s addr size value s' kept write
    have translated := machineTranslate_eq (owner.of_kept kept) s.2 addr.toNat size true
    simp only [machineBus] at write
    split at translated
    · obtain ⟨e', error, -⟩ := translated
      rw [error] at write
      cases write
    · obtain ⟨aligned, inside, ok⟩ := translated
      rw [ok] at write
      cases write
      exact (kept.store aligned inside _).touch _ _

end Nachos.User
