import Nachos.Mp4.Walking

/-!
# `Create` and `CreateDirectory`

On a mounted file system both calls fail without touching the disk, or link one new
file. `CanCreate` says which, so that a call is known to succeed when there is room.
-/

namespace Nachos.Mp4
open Bytes

variable {d d' : Disk} {fs : FileSystem} {S : Store} {p i s : Nat} {u v : Node} {name : List Byte} {m : FreeMap}
  {hdr : FileHeader} {L : Nat}

/-- Writing a header on sectors that no live file owns: the old files stay, and the new
one is there with whatever its sectors held. -/
theorem Rep.writeHeader (rep : Rep d S) (laid : Laid S) {s : Word} (shaped : hdr.Shaped L)
    (nodup : (hdr.owned s.toNat).Nodup) (range : ∀ x ∈ hdr.owned s.toNat, x < diskSectors)
    (apart : ∀ {t w}, S t = some w → (hdr.owned s.toNat).Disjoint (w.owned t)) (dir : Bool) :
    ∃ d', hdr.writeBack d s = .ok d' ∧ Rep d' S ∧ Rep d' (S.insert s.toNat ⟨hdr, content d' hdr L, dir⟩) := by
  have heads : s.toNat :: hdr.exts ⊆ hdr.owned s.toNat := (⟨hdr, [], dir⟩ : Node).heads_subset s.toNat
  have nodup' : (s.toNat :: hdr.exts).Nodup := nodup.sublist ((List.sublist_append_left _ _).cons_cons _)
  obtain ⟨d', hw, hs, off⟩ := FileHeader.writeBack_stored (d := d) shaped.ended nodup' fun x hx => range x (heads hx)
  refine ⟨d', hw, rep.off laid off fun h => ?_, ?_⟩
  · exact List.disjoint_of_subset_right heads (List.disjoint_symm (apart h))
  · exact rep.insert laid hs off apart (by rw [length_content])

/-! ## Reserving sectors -/

/-- A header for `L` bytes at `s`, on sectors that the map of `S` had clear. -/
structure Reserved (S : Store) (s : Nat) (hdr : FileHeader) (L : Nat) (m : FreeMap) : Prop where
  shaped : hdr.Shaped L
  taken : S.freeMap.Taken m (hdr.owned s)

/-- A free entry, and sectors for a header and a file of `L` bytes. -/
def Room (S : Store) (u : Node) (L : Nat) : Prop :=
  (∃ i < numDirEntries, (u.table.entry i).inUse = 0) ∧ 1 + sectorsNeeded L ≤ S.freeMap.numClear

/-- **The in-memory part of the calls** succeeds exactly when there is room. -/
theorem reserve_spec (fresh : u.table.findIndex name = none) (size : Word) (dir : Bool) :
    (Room S u (allocLength size) ∧ ∃ i s hdr m, i < numDirEntries ∧ (u.table.entry i).inUse = 0 ∧
      Reserved S s hdr (allocLength size) m ∧
      FileSystem.reserve S.freeMap u.table name size dir = .ok (some (BitVec.ofNat 32 s, linkedTable u i name s dir, hdr, m))) ∨
    (¬ Room S u (allocLength size) ∧ FileSystem.reserve S.freeMap u.table name size dir = .ok none) := by
  have hn : diskSectors ≤ 2 ^ 31 := by rw [diskSectors_eq]; omega
  unfold FileSystem.reserve
  cases hf : S.freeMap.findAndSet with
  | none =>
    refine .inr ⟨fun room => ?_, rfl⟩
    have := room.2
    rw [Bitmap.findAndSet_none.1 hf] at this
    omega
  | some r =>
    obtain ⟨s, b⟩ := r
    have one := Bitmap.Taken.of_findAndSet hf
    have count := one.count
    rw [List.length_singleton] at count
    dsimp only
    cases ha : u.table.add name (BitVec.ofNat 32 s) dir with
    | none =>
      refine .inr ⟨fun ⟨⟨i, hi, h0⟩, _⟩ => ?_, rfl⟩
      rcases Directory.add_none.1 ha with h | h
      · exact h fresh
      · exact h i hi h0
    | some t =>
      obtain ⟨i, hi, -, free, rfl⟩ := Directory.add_some ha
      obtain ⟨yes, no⟩ := FileHeader.allocate_spec hn b size
      by_cases c : sectorsNeeded (allocLength size) ≤ b.numClear
      · obtain ⟨hdr, m, hh, al⟩ := yes c
        refine .inl ⟨⟨⟨i, hi, free⟩, by omega⟩, i, s, hdr, m, hi, free, ⟨al.shaped, one.append al.taken⟩, ?_⟩
        rw [linkedTable]
        simp only [hh, ok_bind]
        rfl
      · refine .inr ⟨fun room => c (by have := room.2; omega), ?_⟩
        simp only [no (by omega), ok_bind]
        rfl

namespace Reserved

section
variable (res : Reserved S s hdr L m) (sound : Sound S)
include res

theorem lt : s < diskSectors := res.taken.range s (by simp [FileHeader.owned])

theorem toNat : (BitVec.ofNat 32 s).toNat = s := by
  have := res.lt
  rw [diskSectors_eq] at this
  rw [BitVec.toNat_ofNat]
  omega

/-- Linking a file on the reserved sectors. -/
theorem linking (hp : S p = some u) (hd : u.isDir = true) (hi : i < numDirEntries) (free : (u.table.entry i).inUse = 0)
    (fresh : u.table.findIndex name = none) {bytes : List Byte} {dir : Bool} (len : bytes.length = L)
    (empty : dir = true → bytes = (Directory.new numDirEntries).toBytes) : Linking S p u i name s ⟨hdr, bytes, dir⟩ m where
  parent := hp
  isDir := hd
  slot := hi
  free := free
  fresh := fresh
  shaped := len ▸ res.shaped
  nodup := res.taken.nodup
  range := res.taken.range
  clear := res.taken.fresh
  bits := res.taken.bits
  empty := empty

include sound

theorem apart {t : Nat} {w : Node} (h : S t = some w) : (hdr.owned s).Disjoint (w.owned t) := by
  intro x hx hw
  have := sound.marked h x hw
  rw [res.taken.fresh x hx] at this
  cases this

theorem dead : S s = none := by
  cases h : S s with
  | none => rfl
  | some w => exact absurd (w.self_mem s) (res.apart sound h (by simp [FileHeader.owned]))

theorem ne_live {t : Nat} {w : Node} (h : S t = some w) : t ≠ s := by
  rintro rfl
  rw [res.dead sound] at h
  cases h

theorem laid {bytes : List Byte} (dir : Bool) (len : bytes.length = L) : Laid (S.insert s ⟨hdr, bytes, dir⟩) :=
  sound.toLaid.insert (len ▸ res.shaped) res.taken.nodup res.taken.range (res.apart sound)

/-- `hdr->WriteBack(sector)`: the old files stay, and the new one is there with whatever
its sectors held. -/
theorem writeHeader (rep : Rep d S) (dir : Bool) : ∃ d', hdr.writeBack d (BitVec.ofNat 32 s) = .ok d' ∧ Rep d' S ∧
    Rep d' (S.insert s ⟨hdr, content d' hdr L, dir⟩) := by
  have h := rep.writeHeader sound.toLaid (s := BitVec.ofNat 32 s) res.shaped (by rw [res.toNat]; exact res.taken.nodup)
    (by rw [res.toNat]; exact res.taken.range) (fun h => by rw [res.toNat]; exact res.apart sound h) dir
  rwa [res.toNat] at h

end

end Reserved

/-! ## Writing the parent's table -/

/-- The write of the parent's table in `Create` and `CreateDirectory`. -/
theorem Mounted.writeTable (mounted : Mounted d fs S) (tidy : Tidy S) {parent : List Byte}
    (dirs : DirsAlong S 1 (tokens parent)) (hp : Tree.follow S.child 1 ((tokens parent).map toKey) = some p)
    (hu : S p = some u) (junk : Word) (t : Dir) :
    ∃ f : OpenFile, f.hdr = u.hdr ∧ fs.writeTable d junk parent t = t.writeBack d f := by
  unfold FileSystem.writeTable
  by_cases hne : tokens parent ≠ []
  · exact ⟨⟨u.hdr, 0⟩, rfl, by rw [if_pos hne, mounted.writeParent tidy hne dirs hp hu]⟩
  · refine ⟨fs.directoryFile, ?_, if_neg hne⟩
    rw [not_not] at hne
    rw [hne] at hp
    cases hp
    obtain ⟨u', hu', -, hf⟩ := mounted.root tidy
    rw [hu] at hu'
    cases hu'
    exact hf

/-- The files of a mounted disk after some were written. -/
theorem Mounted.of_rep {S' : Store} (mounted : Mounted d fs S) (rep : Rep d' S')
    (keeps : ∀ {q w}, q < 2 → S q = some w → ∃ w', S' q = some w' ∧ w'.hdr = w.hdr) : Mounted d' fs S' where
  rep := rep
  mapHdr := by
    obtain ⟨v, hv, hf⟩ := mounted.mapHdr
    obtain ⟨w, hw, e⟩ := keeps (by omega) hv
    exact ⟨w, hw, hf.trans e.symm⟩
  dirHdr := by
    obtain ⟨v, hv, hf⟩ := mounted.dirHdr
    obtain ⟨w, hw, e⟩ := keeps (by omega) hv
    exact ⟨w, hw, hf.trans e.symm⟩

theorem Linking.mounted (link : Linking S p u i name s v m) (sound : Sound S) (mounted : Mounted d fs S)
    (rep : Rep d' (S.link p u i name s v m)) : Mounted d' fs (S.link p u i name s v m) :=
  mounted.of_rep rep fun _ => link.keeps sound

theorem Mounted.map (mounted : Mounted d fs S) (tidy : Tidy S) :
    ∃ v, S 0 = some v ∧ v.bytes.length = freeMapFileSize ∧ fs.freeMapFile.hdr = v.hdr := by
  obtain ⟨v, hv, hf⟩ := mounted.mapHdr
  obtain ⟨v', hv', -, hl⟩ := tidy.map
  rw [hv] at hv'
  cases hv'
  exact ⟨v, hv, hl, hf⟩

/-- The header and the parent's table on disk: the new file is there, with the bytes its
sectors held. -/
theorem Mounted.writeEntry (mounted : Mounted d fs S) (sound : Sound S) (res : Reserved S s hdr L m) {parent : List Byte}
    (dirs : DirsAlong S 1 (tokens parent)) (hp : Tree.follow S.child 1 ((tokens parent).map toKey) = some p)
    (hu : S p = some u) (hd : u.isDir = true) (junk : Word) (t : Dir) (dir : Bool) :
    ∃ d₁ d₂ bytes, bytes.length = L ∧ hdr.writeBack d (BitVec.ofNat 32 s) = .ok d₁ ∧
      fs.writeTable d₁ junk parent t = .ok d₂ ∧ Laid ((S.insert s ⟨hdr, bytes, dir⟩).put p t.toBytes) ∧
      Rep d₂ ((S.insert s ⟨hdr, bytes, dir⟩).put p t.toBytes) := by
  obtain ⟨d₁, h₁, old, rep₁⟩ := res.writeHeader sound mounted.rep dir
  have len := length_content d₁ hdr L
  have laid := res.laid sound dir len
  have size := sound.dirSize hu hd
  have hp' : S.insert s ⟨hdr, content d₁ hdr L, dir⟩ p = some u := by
    rw [Store.insert_other _ (res.ne_live sound hu), hu]
  have mounted₁ : Mounted d₁ fs S := mounted.of_rep old fun _ h => ⟨_, h, rfl⟩
  obtain ⟨f, hf, hw⟩ := mounted₁.writeTable sound.toTidy dirs hp hu junk t
  obtain ⟨d₂, h₂, rep₂, -⟩ := rep₁.writeTable laid hp' size hf t
  exact ⟨d₁, d₂, _, len, h₁, hw.trans h₂, laid.put hp' (by rw [Directory.length_toBytes, size, directoryFileSize]), rep₂⟩

/-! ## The calls -/

/-- The parent resolves, the name is free, and there is room for a file of `L` bytes. -/
def CanCreate (S : Store) (parent name : List Byte) (L : Nat) : Prop :=
  ∃ p u, Tree.follow S.child 1 ((tokens parent).map toKey) = some p ∧ S p = some u ∧
    u.table.findIndex name = none ∧ Room S u L

/-- A directory just made has room for any name. -/
theorem Linking.canCreate (link : Linking S p u i name s v m) (sound : Sound S) {P : List Key} {parent : List Byte}
    (hp : Tree.follow S.child 1 P = some p) (hd : v.isDir = true) (below : (tokens parent).map toKey = P ++ [toKey name])
    (next : List Byte) (room : 1 + sectorsNeeded L ≤ m.numClear) : CanCreate (S.link p u i name s v m) parent next L := by
  have g := link.grown sound
  have table : v.table = Directory.new numDirEntries := by rw [Node.table, link.empty hd, Directory.ofBytes_toBytes]
  refine ⟨s, v, ?_, link.at_new sound, ?_, ⟨0, by decide, ?_⟩, ?_⟩
  · rw [below]
    exact (g.paths sound.rooted (link.ne_one sound) hp).2.1
  · rw [← Directory.lookup_none, table, Directory.lookup_new]
  · rw [table, Directory.entry_new]
    rfl
  · rw [link.freeMap_eq sound]
    exact room

/-- The files after a successful call: one more, linked at the path. -/
structure Created (S : Store) (parent name : List Byte) (dir : Bool) (L : Nat) (d' : Disk) (p : Nat) (u : Node) (i s : Nat)
    (v : Node) (m : FreeMap) : Prop where
  resolves : Tree.follow S.child 1 ((tokens parent).map toKey) = some p
  link : Linking S p u i name s v m
  kind : v.isDir = dir
  length : v.bytes.length = L
  count : m.numClear + (v.owned s).length = S.freeMap.numClear
  rep : Rep d' (S.link p u i name s v m)

theorem Created.room {parent : List Byte} {dir : Bool} (made : Created S parent name dir L d' p u i s v m) :
    m.numClear + (1 + sectorsNeeded L) = S.freeMap.numClear := by
  have := made.count
  rw [Node.owned, FileHeader.owned, List.length_cons, made.link.shaped.count, made.length] at this
  omega

/-- The answer of a call that creates a file: it fails and leaves the disk, or links the file. -/
def Creates (S : Store) (d : Disk) (parent name : List Byte) (dir : Bool) (L : Nat) (answer : Exec (Bool × Disk)) : Prop :=
  (¬ CanCreate S parent name L ∧ answer = .ok (false, d)) ∨
    (CanCreate S parent name L ∧ ∃ d' p u i s v m, Created S parent name dir L d' p u i s v m ∧ answer = .ok (true, d'))

section
variable (mounted : Mounted d fs S) (sound : Sound S) {path : CString} {parent : List Byte} (junk : Word)
  (split : splitPath path = .ok (parent, name)) (dirs : DirsAlong S 1 (tokens parent))
include mounted sound dirs

/-- What both calls do up to the writes: the reasons to fail, and else the reserved sectors. -/
theorem Mounted.prepare (name : List Byte) (size : Word) (dir : Bool) :
    (¬ CanCreate S parent name (allocLength size) ∧
      (fs.parentTable d junk parent = .ok none ∨ ∃ t : Dir, fs.parentTable d junk parent = .ok (some t) ∧
        (t.find name ≠ -1 ∨ t.find name = -1 ∧ FileSystem.reserve S.freeMap t name size dir = .ok none))) ∨
    (CanCreate S parent name (allocLength size) ∧ ∃ p u i s hdr m,
      Tree.follow S.child 1 ((tokens parent).map toKey) = some p ∧ S p = some u ∧ u.isDir = true ∧
      i < numDirEntries ∧ (u.table.entry i).inUse = 0 ∧ u.table.findIndex name = none ∧
      Reserved S s hdr (allocLength size) m ∧ fs.parentTable d junk parent = .ok (some u.table) ∧ u.table.find name = -1 ∧
      FileSystem.reserve S.freeMap u.table name size dir = .ok (some (BitVec.ofNat 32 s, linkedTable u i name s dir, hdr, m))) := by
  rcases mounted.parentTable sound.toTidy dirs junk with ⟨hp, -, ht⟩ | ⟨p, u, hp, hu, hd, ht⟩
  · refine .inl ⟨?_, .inl ht⟩
    rintro ⟨p, u, h, -⟩
    rw [hp] at h
    cases h
  -- the parent is the one found
  have only : ∀ {L}, CanCreate S parent name L → u.table.findIndex name = none ∧ Room S u L := by
    rintro L ⟨p', u', hp', hu', fresh, room⟩
    rw [hp] at hp'
    cases hp'
    rw [hu] at hu'
    cases hu'
    exact ⟨fresh, room⟩
  rcases sound.toTidy.find hu hd name with ⟨-, hf, fresh⟩ | ⟨i, e, -, -, hi, -, hf, hne, -⟩
  · rcases reserve_spec (S := S) fresh size dir with ⟨room, i, s, hdr, m, hi, free, res, hres⟩ | ⟨noRoom, hres⟩
    · exact .inr ⟨⟨p, u, hp, hu, fresh, room⟩, p, u, i, s, hdr, m, hp, hu, hd, hi, free, fresh, res, ht, hf, hres⟩
    · exact .inl ⟨fun can => noRoom (only can).2, .inr ⟨_, ht, .inr ⟨hf, hres⟩⟩⟩
  · refine .inl ⟨fun can => ?_, .inr ⟨_, ht, .inl (hf ▸ hne)⟩⟩
    have := (only can).1
    rw [hi] at this
    cases this

include split

/-- **`Create`** fails and leaves the disk, or links a regular file. -/
theorem Mounted.create (size : Word) :
    Creates S d parent name false (allocLength size) (fs.create d junk path size) := by
  unfold FileSystem.create
  simp only [split, ok_bind]
  rcases mounted.prepare sound junk dirs name size false with ⟨no, ht | ⟨t, ht, hf | ⟨hf, hres⟩⟩⟩ |
    ⟨can, p, u, i, s, hdr, m, hp, hu, hd, hi, free, fresh, res, ht, hf, hres⟩
  · exact .inl ⟨no, by simp only [ht, ok_bind]; rfl⟩
  · exact .inl ⟨no, by simp only [ht, ok_bind]; rw [if_pos hf]; rfl⟩
  · refine .inl ⟨no, ?_⟩
    simp only [ht, ok_bind]
    rw [if_neg (not_not.2 hf), mounted.fetchMap sound.toTidy, ok_bind, hres]
    rfl
  · refine .inr ⟨can, ?_⟩
    obtain ⟨d₁, d₂, bytes, len, h₁, h₂, laid, rep⟩ :=
      mounted.writeEntry sound res dirs hp hu hd junk (linkedTable u i name s false) false
    obtain ⟨v₀, h₀, size₀, hf₀⟩ := mounted.map sound.toTidy
    obtain ⟨d₃, h₃, rep₃⟩ := rep.writeMap laid (f := fs.freeMapFile) (v := v₀) (by
      rw [Store.put_other _ (sound.dir_ne_zero hu hd).symm, Store.insert_other _ (res.ne_live sound h₀), h₀]) size₀ hf₀ m
    refine ⟨d₃, p, u, i, s, ⟨hdr, bytes, false⟩, m, ⟨hp, res.linking hu hd hi free fresh len (by simp), rfl, len, res.taken.count, rep₃⟩, ?_⟩
    simp only [ht, ok_bind]
    rw [if_neg (not_not.2 hf), mounted.fetchMap sound.toTidy, ok_bind]
    simp only [hres, ok_bind, h₁, h₂, h₃]
    rfl

/-- **`CreateDirectory`** fails and leaves the disk, or links an empty directory. -/
theorem Mounted.createDirectory :
    Creates S d parent name true directoryFileSize (fs.createDirectory d junk path) := by
  unfold FileSystem.createDirectory
  simp only [split, ok_bind]
  have size : allocLength (BitVec.ofNat 32 directoryFileSize) = directoryFileSize := rfl
  have prep := mounted.prepare sound junk dirs name (BitVec.ofNat 32 directoryFileSize) true
  rw [size] at prep
  rcases prep with
    ⟨no, ht | ⟨t, ht, hf | ⟨hf, hres⟩⟩⟩ | ⟨can, p, u, i, s, hdr, m, hp, hu, hd, hi, free, fresh, res, ht, hf, hres⟩
  · exact .inl ⟨no, by simp only [ht, ok_bind]; rfl⟩
  · exact .inl ⟨no, by simp only [ht, ok_bind]; rw [if_pos hf]; rfl⟩
  · refine .inl ⟨no, ?_⟩
    simp only [ht, ok_bind]
    rw [if_neg (not_not.2 hf), mounted.fetchMap sound.toTidy, ok_bind, hres]
    rfl
  · refine .inr ⟨can, ?_⟩
    obtain ⟨d₁, d₂, bytes, len, h₁, h₂, laid, rep⟩ :=
      mounted.writeEntry sound res dirs hp hu hd junk (linkedTable u i name s true) true
    set S₂ := (S.insert s ⟨hdr, bytes, true⟩).put p (linkedTable u i name s true).toBytes with hS₂
    have hps : p ≠ s := res.ne_live sound hu
    obtain ⟨v₀, h₀, size₀, hf₀⟩ := mounted.map sound.toTidy
    have h0s : 0 ≠ s := res.ne_live sound h₀
    -- the new directory's own table
    have at_s : S₂ s = some ⟨hdr, bytes, true⟩ := by rw [hS₂, Store.put_other _ hps.symm, Store.insert_self]
    have at_w : S₂ (BitVec.ofNat 32 s).toNat = some ⟨hdr, bytes, true⟩ := by rw [res.toNat]; exact at_s
    have hopen := rep.openFile laid at_w
    obtain ⟨d₃, h₃, rep₃, -⟩ := rep.writeTable laid at_s len (f := ⟨hdr, 0⟩) rfl (Directory.new numDirEntries)
    have len' : (Directory.new numDirEntries).toBytes.length = directoryFileSize := Directory.length_toBytes _
    have laid₃ : Laid (S₂.put s (Directory.new numDirEntries).toBytes) := laid.put at_s (len'.trans len.symm)
    obtain ⟨d₄, h₄, rep₄⟩ := rep₃.writeMap laid₃ (f := fs.freeMapFile) (v := v₀) (by
      rw [Store.put_other _ h0s, hS₂, Store.put_other _ (sound.dir_ne_zero hu hd).symm, Store.insert_other _ h0s, h₀]) size₀ hf₀ m
    refine ⟨d₄, p, u, i, s, ⟨hdr, (Directory.new numDirEntries).toBytes, true⟩, m,
      ⟨hp, res.linking hu hd hi free fresh len' (fun _ => rfl), rfl, len', res.taken.count, ?_⟩, ?_⟩
    · have same : S₂.put s (Directory.new numDirEntries).toBytes =
          (S.insert s ⟨hdr, (Directory.new numDirEntries).toBytes, true⟩).put p (linkedTable u i name s true).toBytes := by
        rw [hS₂, Store.put_comm _ hps, Store.insert_put]
      rw [Store.link, ← same]
      exact rep₄
    · simp only [ht, ok_bind]
      rw [if_neg (not_not.2 hf), mounted.fetchMap sound.toTidy, ok_bind]
      simp only [hres, ok_bind, h₁, h₂, hopen, h₃, h₄]
      rfl

end

end Nachos.Mp4
