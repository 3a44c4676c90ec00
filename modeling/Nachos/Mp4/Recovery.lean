import Nachos.Mp4.Lookup

/-!
# The store of a disk

A disk whose sectors are owned once holds a sound store: its files are the headers that
the disk reaches. What is known of sound stores then holds of every such disk, however
it came about.
-/

namespace Nachos.Mp4
open Bytes Transition

variable {d : Disk} {route route' : Option (List Nat)} {sector sector' : Word} {dir dir' : Bool}

/-! ## Reading a header -/

theorem HeaderSector.encode_decode (v : Sector) : (decode v).encode = v := by
  apply Sector.ext
  have words : ∀ k < 32, (decode v).word k = wordAt v.bytes k := by
    intro k hk
    match k with
    | 0 => rfl
    | 1 => rfl
    | 2 => rfl
    | k + 3 =>
      have : k < numDirect := by rw [numDirect_eq]; omega
      simp only [word, dataSector, decode, List.getD_eq_getElem?_getD, Vector.getElem?_toList, Vector.getElem?_ofFn, this,
        dite_true, Option.getD_some]
  exact (encode_congr words).trans (encode_wordAt v.size)

/-- A header that was fetched lies on disk. -/
theorem Stored.of_fetchDepth : ∀ {depth : Nat} {s : Word} {h : FileHeader}, FileHeader.fetchDepth d depth s = .ok h →
    Stored d s.toNat h
  | 0, _, _, h => by cases h
  | depth + 1, s, h, fetched => by
    obtain ⟨v, read, rest⟩ := bind_ok fetched
    obtain ⟨-, rfl⟩ := readSector_ok read
    dsimp only at rest
    split at rest
    · rename_i more
      obtain ⟨next, fetched', rest⟩ := bind_ok rest
      cases rest
      exact ⟨(HeaderSector.encode_decode _).symm, more, of_fetchDepth fetched'⟩
    · rename_i last
      cases rest
      exact ⟨(HeaderSector.encode_decode _).symm, not_not.1 last⟩

/-- The layout of a header says how long its file is. -/
theorem FileHeader.Shaped.length_unique : ∀ {h : FileHeader} {L L' : Nat}, h.Shaped L → h.Shaped L' → L = L'
  | .last disk, L, L', hs, hs' => by rw [← hs.1.numBytes, ← hs'.1.numBytes]
  | .link disk next, L, L', hs, hs' => by
    have := hs.2.2.2.length_unique hs'.2.2.2
    have := hs.2.2.1
    have := hs'.2.2.1
    omega

/-! ## The headers of a disk -/

/-- A route leads to one header. -/
theorem Reached.unique (h : Reached d route sector dir) (h' : Reached d route sector' dir') : sector = sector' ∧ dir = dir' := by
  induction h generalizing sector' dir' with
  | map =>
    cases h'
    exact ⟨rfl, rfl⟩
  | root =>
    cases h'
    exact ⟨rfl, rfl⟩
  | entry _ table _ _ ih =>
    cases h' with
    | entry h' table' _ _ =>
      obtain ⟨rfl, -⟩ := ih h'
      rw [table] at table'
      cases table'
      exact ⟨rfl, rfl⟩

namespace Ownership

/-- A header of the disk with the file it describes. -/
structure File (d : Disk) (s : Nat) (v : Node) : Prop where
  reached : ∃ route, Reached d route (BitVec.ofNat 32 s) v.isDir
  small : s < 2 ^ 31
  fetched : FileHeader.fetchFrom d (BitVec.ofNat 32 s) = .ok v.hdr
  shaped : v.hdr.Shaped v.bytes.length
  bytes : content d v.hdr v.bytes.length = v.bytes

variable (owned : Ownership d)
include owned

theorem file_of_reached (h : Reached d route sector dir) : ∃ v, File d sector.toNat v ∧ v.isDir = dir ∧
    (dir = true → v.bytes.length = directoryFileSize) ∧ (route = none → v.bytes.length = freeMapFileSize) := by
  obtain ⟨hdr, L, fetched, shaped, dirSize, mapSize⟩ := owned.formed h
  have lt := owned.range h fetched sector.toNat (by simp [FileHeader.owned])
  rw [diskSectors_eq] at lt
  have number : BitVec.ofNat 32 sector.toNat = sector := by rw [BitVec.ofNat_toNat, BitVec.setWidth_eq]
  refine ⟨⟨hdr, content d hdr L, dir⟩, ⟨⟨route, ?_⟩, by omega, ?_, ?_, ?_⟩, rfl, ?_, ?_⟩
  · rw [number]
    exact h
  · rw [number]
    exact fetched
  · rw [length_content]
    exact shaped
  · rw [length_content]
  · rw [length_content]
    exact dirSize
  · rw [length_content]
    exact mapSize

/-- Headers at one sector come by one route. -/
theorem route_unique (h : Reached d route sector dir) (h' : Reached d route' sector dir') : route = route' := by
  by_contra ne
  obtain ⟨hdr, L, fetched, -⟩ := owned.formed h
  exact owned.disjoint h h' ne fetched fetched (a := sector.toNat) (by simp [FileHeader.owned]) (by simp [FileHeader.owned])

theorem file_unique {s : Nat} {v w : Node} (hv : File d s v) (hw : File d s w) : v = w := by
  obtain ⟨route, hr⟩ := hv.reached
  obtain ⟨route', hr'⟩ := hw.reached
  obtain rfl := owned.route_unique hr hr'
  obtain ⟨-, kind⟩ := hr.unique hr'
  have hdr := hv.fetched
  rw [hw.fetched] at hdr
  have same : w.hdr = v.hdr := Except.ok.inj hdr
  have len := hv.shaped.length_unique (same ▸ hw.shaped)
  have bytes := hv.bytes
  rw [len, ← same, hw.bytes] at bytes
  cases v
  cases w
  simp only at kind same bytes
  rw [kind, same, bytes]

open Classical in
omit owned in
/-- The files that the disk reaches. -/
noncomputable def store (d : Disk) : Store := fun s => if h : ∃ v, File d s v then some h.choose else none

theorem store_eq {s : Nat} {v : Node} : store d s = some v ↔ File d s v := by
  unfold store
  split
  · rename_i h
    rw [Option.some.injEq]
    constructor
    · rintro rfl
      exact h.choose_spec
    · exact owned.file_unique h.choose_spec
  · rename_i h
    constructor
    · intro e
      cases e
    · intro hv
      exact absurd ⟨v, hv⟩ h

omit owned in
theorem File.number {s : Nat} {v : Node} (file : File d s v) : (BitVec.ofNat 32 s).toNat = s :=
  FileHeader.ofNat_toNat file.small

theorem laid_store : Laid (store d) where
  shaped h := ((owned.store_eq).1 h).shaped
  nodup h := by
    have file := (owned.store_eq).1 h
    obtain ⟨route, hr⟩ := file.reached
    have := owned.nodup hr file.fetched
    rwa [file.number] at this
  range h := by
    have file := (owned.store_eq).1 h
    obtain ⟨route, hr⟩ := file.reached
    have := owned.range hr file.fetched
    rwa [file.number] at this
  disjoint {s v t w} h h' ne := by
    have file := (owned.store_eq).1 h
    have file' := (owned.store_eq).1 h'
    obtain ⟨route, hr⟩ := file.reached
    obtain ⟨route', hr'⟩ := file'.reached
    have := owned.disjoint hr hr' (fun e => ne ?_) file.fetched file'.fetched
    · rwa [file.number, file'.number] at this
    · subst e
      have same := (hr.unique hr').1
      rw [← file.number, ← file'.number, same]

theorem rep_store : Rep d (store d) where
  stored h := by
    have file := (owned.store_eq).1 h
    have := Stored.of_fetchDepth file.fetched
    rwa [file.number] at this
  bytes h := ((owned.store_eq).1 h).bytes

/-- An entry of the store is one of the disk. -/
theorem reached_entry {p i : Nat} {e : DirectoryEntry} (h : (store d).Entry p i e) : ∃ route,
    Reached d (some route) (BitVec.ofNat 32 p) true ∧ Reached d (some (i :: route)) e.sector (e.dir != 0) := by
  obtain ⟨u, hu, hd, hi, rfl, used⟩ := h
  have file := (owned.store_eq).1 hu
  obtain ⟨route, hr⟩ := file.reached
  rw [hd] at hr
  -- the map is no directory
  obtain ⟨route, rfl⟩ : ∃ r, route = some r := by
    cases route with
    | none =>
      obtain ⟨-, kind⟩ := hr.unique Reached.map
      cases kind
    | some r => exact ⟨r, rfl⟩
  obtain ⟨v, filev, -, size, -⟩ := owned.file_of_reached hr
  rw [file.number] at filev
  obtain rfl := owned.file_unique filev file
  have readable : Readable (OpenFile.mk v.hdr 0).hdr (20 * numDirEntries) := by
    have := owned.laid_store.readable hu
    rwa [size rfl] at this
  have table : tableAt d (BitVec.ofNat 32 p) = .ok v.table := by
    rw [Mp4.tableAt, owned.rep_store.openFile owned.laid_store (by rw [file.number]; exact hu), ok_bind,
      Directory.fetchFrom_eq readable, Node.table, ← file.bytes, size rfl]
    rfl
  exact ⟨route, hr, .entry hr table hi used⟩

theorem tidy_store : Tidy (store d) where
  toLaid := owned.laid_store
  map := by
    obtain ⟨v, file, kind, -, size⟩ := owned.file_of_reached Reached.map
    exact ⟨v, (owned.store_eq).2 file, kind, size rfl⟩
  root := by
    obtain ⟨v, file, kind, -⟩ := owned.file_of_reached Reached.root
    exact ⟨v, (owned.store_eq).2 file, kind⟩
  dirSize {s v} h hd := by
    have file := (owned.store_eq).1 h
    obtain ⟨route, hr⟩ := file.reached
    obtain ⟨w, filew, -, size, -⟩ := owned.file_of_reached hr
    rw [file.number] at filew
    obtain rfl := owned.file_unique filew file
    exact size hd
  named {p i e} h := by
    obtain ⟨route, -, hr⟩ := owned.reached_entry h
    obtain ⟨v, file, kind, -⟩ := owned.file_of_reached hr
    refine ⟨?_, v, (owned.store_eq).2 file, ?_⟩
    · by_contra small
      have low : e.sector = freeMapSector ∨ e.sector = directorySector := by
        rcases (by omega : e.sector.toNat = 0 ∨ e.sector.toNat = 1) with h0 | h1
        · exact .inl (BitVec.eq_of_toNat_eq h0)
        · exact .inr (BitVec.eq_of_toNat_eq h1)
      rcases low with h0 | h1
      · rw [h0] at hr
        cases owned.route_unique hr Reached.map
      · rw [h1] at hr
        cases owned.route_unique hr Reached.root
    · rw [kind]
      simp
  unique {p i e p' i' e'} h h' hs := by
    obtain ⟨route, hp, hr⟩ := owned.reached_entry h
    obtain ⟨route', hp', hr'⟩ := owned.reached_entry h'
    rw [← hs] at hr'
    cases owned.route_unique hr hr'
    refine ⟨?_, rfl⟩
    obtain ⟨u, hu, -⟩ := h
    obtain ⟨u', hu', -⟩ := h'
    rw [← ((owned.store_eq).1 hu).number, ← ((owned.store_eq).1 hu').number, (hp.unique hp').1]

end Ownership

end Nachos.Mp4
