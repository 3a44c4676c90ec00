import Nachos.Base.Tree
import Nachos.Mp4.FileSystem

/-!
# The files of a disk

A store says which header sectors hold live files, and of each file its header, its
bytes and whether it is a directory. `Rep d S` says that the disk holds the store.
`Sound` is the invariant of stores: the files lie apart, the map at sector 0 marks what
they own, and each entry of a directory names a file that no other entry names.
-/

namespace Nachos.Mp4
open Bytes

/-- A file. -/
structure Node where
  hdr : FileHeader
  bytes : List Byte
  isDir : Bool

/-- The table of a directory. -/
def Node.table (v : Node) : Dir := .ofBytes numDirEntries v.bytes

/-- The sectors of a file whose header is at `s`. -/
def Node.owned (v : Node) (s : Nat) : List Nat := v.hdr.owned s

/-- The live files by header sector. -/
abbrev Store := Nat → Option Node

/-- The disk holds the files of the store. -/
structure Rep (d : Disk) (S : Store) : Prop where
  stored : ∀ {s v}, S s = some v → Stored d s v.hdr
  bytes : ∀ {s v}, S s = some v → content d v.hdr v.bytes.length = v.bytes

/-- The files of a store have the layout of `Allocate`, on sectors of their own. -/
structure Laid (S : Store) : Prop where
  shaped : ∀ {s v}, S s = some v → v.hdr.Shaped v.bytes.length
  nodup : ∀ {s v}, S s = some v → (v.owned s).Nodup
  range : ∀ {s v}, S s = some v → ∀ x ∈ v.owned s, x < diskSectors
  disjoint : ∀ {s v t w}, S s = some v → S t = some w → s ≠ t → (v.owned s).Disjoint (w.owned t)

namespace Store

/-- File `s` with other bytes. -/
def put (S : Store) (s : Nat) (bytes : List Byte) : Store :=
  Function.update S s ((S s).map fun v => { v with bytes := bytes })

def insert (S : Store) (s : Nat) (v : Node) : Store := Function.update S s (some v)

def erase (S : Store) (s : Nat) : Store := Function.update S s none

@[simp] theorem put_self {S : Store} {s : Nat} {v : Node} (h : S s = some v) (bytes : List Byte) :
    S.put s bytes s = some { v with bytes := bytes } := by
  rw [put, Function.update_self, h]
  rfl

@[simp] theorem put_other (S : Store) {s t : Nat} (h : t ≠ s) (bytes : List Byte) : S.put s bytes t = S t :=
  Function.update_of_ne h _ _

@[simp] theorem insert_self (S : Store) (s : Nat) (v : Node) : S.insert s v s = some v := Function.update_self _ _ _

@[simp] theorem insert_other (S : Store) {s t : Nat} (h : t ≠ s) (v : Node) : S.insert s v t = S t :=
  Function.update_of_ne h _ _

/-- Two files given other bytes, in either order. -/
theorem put_comm (S : Store) {s t : Nat} (h : s ≠ t) (bytes bytes' : List Byte) :
    (S.put s bytes).put t bytes' = (S.put t bytes').put s bytes := by
  unfold put
  rw [Function.update_of_ne h.symm, Function.update_of_ne h, Function.update_comm h]

/-- A new file given other bytes. -/
theorem insert_put (S : Store) (s : Nat) (v : Node) (bytes : List Byte) :
    (S.insert s v).put s bytes = S.insert s { v with bytes := bytes } := by
  unfold put insert
  rw [Function.update_self, Function.update_idem, Option.map_some]

@[simp] theorem erase_self (S : Store) (s : Nat) : S.erase s s = none := Function.update_self _ _ _

@[simp] theorem erase_other (S : Store) {s t : Nat} (h : t ≠ s) : S.erase s t = S t := Function.update_of_ne h _ _

end Store

variable {d d' : Disk} {S : Store} {s t : Nat} {v w : Node}

/-! ## Layout -/

theorem Node.mem_owned (v : Node) (s x : Nat) : x ∈ v.owned s ↔ x = s ∨ x ∈ v.hdr.exts ∨ x ∈ v.hdr.datas := by
  simp [owned, FileHeader.owned]

theorem Node.self_mem (v : Node) (s : Nat) : s ∈ v.owned s := by simp [mem_owned]

theorem Node.datas_subset (v : Node) (s : Nat) : v.hdr.datas ⊆ v.owned s := fun x hx => by simp [mem_owned, hx]

theorem Node.heads_subset (v : Node) (s : Nat) : s :: v.hdr.exts ⊆ v.owned s := fun x hx => by
  rcases List.mem_cons.1 hx with rfl | hx
  · exact v.self_mem x
  · simp [mem_owned, hx]

namespace Laid

theorem heads_nodup (laid : Laid S) (h : S s = some v) : (s :: v.hdr.exts).Nodup :=
  (laid.nodup h).sublist ((List.sublist_append_left _ _).cons_cons _)

theorem datas_nodup (laid : Laid S) (h : S s = some v) : v.hdr.datas.Nodup :=
  (laid.nodup h).sublist ((List.sublist_append_right _ _).cons _)

/-- A file's data sectors and its header sectors are different ones. -/
theorem heads_disjoint (laid : Laid S) (h : S s = some v) : (s :: v.hdr.exts).Disjoint v.hdr.datas := by
  have := laid.nodup h
  rw [Node.owned, FileHeader.owned, ← List.cons_append] at this
  exact List.disjoint_of_nodup_append this

theorem lt (laid : Laid S) (h : S s = some v) : s < diskSectors := laid.range h s (v.self_mem s)

/-- The sector number of a file is that of a word. -/
theorem toNat_ofNat (laid : Laid S) (h : S s = some v) : (BitVec.ofNat 32 s).toNat = s := by
  have := laid.lt h
  rw [diskSectors_eq] at this
  exact FileHeader.ofNat_toNat (by omega)

/-- The disk bounds the length of a file. -/
theorem length_le (laid : Laid S) (h : S s = some v) : v.bytes.length ≤ 2 ^ 26 := by
  have := length_le_diskSectors (laid.datas_nodup h) fun x hx => laid.range h x (v.datas_subset s hx)
  rw [(laid.shaped h).length_datas, divRoundUp_sector, diskSectors_eq] at this
  omega

theorem readable (laid : Laid S) (h : S s = some v) : Readable v.hdr v.bytes.length where
  shaped := laid.shaped h
  small := by have := laid.length_le h; omega
  range x hx := laid.range h x (v.datas_subset s hx)

theorem put (laid : Laid S) (h : S s = some v) {bytes : List Byte} (len : bytes.length = v.bytes.length) :
    Laid (S.put s bytes) := by
  -- the file at each sector keeps its header and its length
  have old : ∀ {t w}, S.put s bytes t = some w →
      ∃ u, S t = some u ∧ u.hdr = w.hdr ∧ u.bytes.length = w.bytes.length := by
    intro t w ht
    by_cases e : t = s
    · subst e
      rw [Store.put_self h] at ht
      cases ht
      exact ⟨v, h, rfl, len.symm⟩
    · rw [Store.put_other S e] at ht
      exact ⟨w, ht, rfl, rfl⟩
  constructor
  · intro t w ht
    obtain ⟨u, hu, e, l⟩ := old ht
    exact e ▸ l ▸ laid.shaped hu
  · intro t w ht
    obtain ⟨u, hu, e, -⟩ := old ht
    simpa only [Node.owned, e] using laid.nodup hu
  · intro t w ht
    obtain ⟨u, hu, e, -⟩ := old ht
    simpa only [Node.owned, e] using laid.range hu
  · intro t w t' w' ht ht' hne
    obtain ⟨u, hu, e, -⟩ := old ht
    obtain ⟨u', hu', e', -⟩ := old ht'
    simpa only [Node.owned, e, e'] using laid.disjoint hu hu' hne

/-- A new file on sectors no file owns. -/
theorem insert (laid : Laid S) (shaped : v.hdr.Shaped v.bytes.length) (nodup : (v.owned s).Nodup)
    (range : ∀ x ∈ v.owned s, x < diskSectors) (apart : ∀ {t w}, S t = some w → (v.owned s).Disjoint (w.owned t)) :
    Laid (S.insert s v) := by
  have cases : ∀ {t w}, S.insert s v t = some w → (t = s ∧ w = v) ∨ (t ≠ s ∧ S t = some w) := by
    intro t w ht
    by_cases e : t = s
    · subst e
      rw [Store.insert_self] at ht
      exact .inl ⟨rfl, (Option.some.inj ht).symm⟩
    · rw [Store.insert_other S e] at ht
      exact .inr ⟨e, ht⟩
  constructor
  · intro t w ht
    rcases cases ht with ⟨rfl, rfl⟩ | ⟨-, ht⟩
    · exact shaped
    · exact laid.shaped ht
  · intro t w ht
    rcases cases ht with ⟨rfl, rfl⟩ | ⟨-, ht⟩
    · exact nodup
    · exact laid.nodup ht
  · intro t w ht
    rcases cases ht with ⟨rfl, rfl⟩ | ⟨-, ht⟩
    · exact range
    · exact laid.range ht
  · intro t w t' w' ht ht' hne
    rcases cases ht with ⟨rfl, rfl⟩ | ⟨-, h₁⟩ <;> rcases cases ht' with ⟨rfl, rfl⟩ | ⟨-, h₂⟩
    · exact absurd rfl hne
    · exact apart h₂
    · exact List.disjoint_symm (apart h₁)
    · exact laid.disjoint h₁ h₂ hne

theorem of_erase {q : Nat} (h : S.erase s q = some v) : S q = some v := by
  by_cases e : q = s
  · rw [e, Store.erase_self] at h
    cases h
  · rwa [Store.erase_other S e] at h

theorem erase (laid : Laid S) (s : Nat) : Laid (S.erase s) where
  shaped h := laid.shaped (of_erase h)
  nodup h := laid.nodup (of_erase h)
  range h := laid.range (of_erase h)
  disjoint h h' := laid.disjoint (of_erase h) (of_erase h')

end Laid

/-! ## Disk and store -/

namespace Rep

/-- Fetching a live header. -/
theorem fetchHeader (rep : Rep d S) (laid : Laid S) {s : Word} (h : S s.toNat = some v) : FileHeader.fetchFrom d s = .ok v.hdr :=
  (rep.stored h).fetchFrom (laid.heads_nodup h) fun x hx => laid.range h x (v.heads_subset _ hx)

/-- Opening a live file. -/
theorem openFile (rep : Rep d S) (laid : Laid S) {s : Word} (h : S s.toNat = some v) :
    openFile d s = .ok ⟨v.hdr, 0⟩ := by
  rw [Mp4.openFile, rep.fetchHeader laid h]
  rfl

/-- The disk changed at sectors the store does not own. -/
theorem off (rep : Rep d S) (laid : Laid S) {l : List Nat} (off : AgreeOff l d d')
    (apart : ∀ {t w}, S t = some w → (w.owned t).Disjoint l) : Rep d' S where
  stored h := (rep.stored h).congr (off.on (List.disjoint_of_subset_left (Node.heads_subset _ _) (apart h)))
  bytes h := (content_congr (laid.shaped h)
    (off.on (List.disjoint_of_subset_left (Node.datas_subset _ _) (apart h)))).trans (rep.bytes h)

/-- **Writing a file** changes its bytes and no other file. -/
theorem put (rep : Rep d S) (laid : Laid S) (h : S s = some v) {bytes : List Byte} (off : AgreeOff v.hdr.datas d d')
    (hc : content d' v.hdr v.bytes.length = bytes) : Rep d' (S.put s bytes) := by
  have apart : ∀ {t w}, t ≠ s → S t = some w → (w.owned t).Disjoint v.hdr.datas := fun hne hw =>
    List.disjoint_of_subset_right (v.datas_subset s) (laid.disjoint hw h hne)
  constructor
  · intro t w ht
    by_cases e : t = s
    · subst e
      rw [Store.put_self h] at ht
      cases ht
      exact (rep.stored h).congr (off.on (laid.heads_disjoint h))
    · rw [Store.put_other S e] at ht
      exact (rep.stored ht).congr (off.on (List.disjoint_of_subset_left (w.heads_subset t) (apart e ht)))
  · intro t w ht
    by_cases e : t = s
    · subst e
      rw [Store.put_self h] at ht
      cases ht
      rw [← hc, length_content]
    · rw [Store.put_other S e] at ht
      rw [content_congr (laid.shaped ht) (off.on (List.disjoint_of_subset_left (w.datas_subset t) (apart e ht))), rep.bytes ht]

/-- **Writing a new header** on sectors the store does not own. -/
theorem insert (rep : Rep d S) (laid : Laid S) (stored : Stored d' s v.hdr) (off : AgreeOff (s :: v.hdr.exts) d d')
    (apart : ∀ {t w}, S t = some w → (v.owned s).Disjoint (w.owned t)) (hc : content d' v.hdr v.bytes.length = v.bytes) :
    Rep d' (S.insert s v) := by
  have old := rep.off laid off fun hw => List.disjoint_of_subset_right (v.heads_subset s) (List.disjoint_symm (apart hw))
  constructor
  · intro t w ht
    by_cases e : t = s
    · subst e
      rw [Store.insert_self] at ht
      cases ht
      exact stored
    · rw [Store.insert_other S e] at ht
      exact old.stored ht
  · intro t w ht
    by_cases e : t = s
    · subst e
      rw [Store.insert_self] at ht
      cases ht
      exact hc
    · rw [Store.insert_other S e] at ht
      exact old.bytes ht

theorem erase (rep : Rep d S) (s : Nat) : Rep d (S.erase s) where
  stored h := rep.stored (Laid.of_erase h)
  bytes h := rep.bytes (Laid.of_erase h)

end Rep

end Nachos.Mp4
