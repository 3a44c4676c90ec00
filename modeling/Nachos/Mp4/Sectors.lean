import Nachos.Mp4.Runs

/-!
# Sector ownership and leaks

In the runs of an allowed client no two files share a sector and no sector in use is free
in the map. The converse needs more of the client: `Deallocate` frees data sectors only,
so that removing a chained file leaves its extension headers marked, and removing a
directory leaves everything below it marked.
-/

namespace Nachos.Mp4
open Bytes Transition

/-- Every marked sector is owned by a header of the disk. -/
def NoLeak (d : Disk) : Prop := ∀ b x, diskMap d = .ok b → b.testBit x = true → ∃ route sector dir h,
  Reached d route sector dir ∧ FileHeader.fetchFrom d sector = .ok h ∧ x ∈ h.owned sector.toNat

/-- What `Remove` may be used on: a file with a single header sector, or an empty directory. -/
def Removable (d : Disk) (sector : Word) : Bool → Prop
  | false => ∃ f, openFile d sector = .ok f ∧ f.length ≤ maxFileSize
  | true => ∃ t, tableAt d sector = .ok t ∧ ∀ i < numDirEntries, (t.entry i).inUse = 0

/-- The call removes nothing that owns more than its header and its data. -/
def Releasing (m : Machine) : Call → Prop
  | .remove _ path => ∀ sector dir, resolve m.disk (pathNames path) = some (sector, dir) → Removable m.disk sector dir
  | _ => True

variable {d : Disk} {S S' : Store} {m m' : Machine} {c : Call}

/-- Nothing is marked for no reason: marked sectors belong to live files, and these have names. -/
structure Tight (S : Store) : Prop where
  owned : ∀ {x}, S.freeMap.testBit x = true → ∃ s v, S s = some v ∧ x ∈ v.owned s
  named : ∀ {s v}, S s = some v → s = 0 ∨ ∃ q, Tree.follow S.child 1 q = some s

/-- A named file is a header of the disk. -/
theorem Rep.reached_of_follow (rep : Rep d S) (tidy : Tidy S) {q : List Key} {s : Nat} {v : Node}
    (hs : Tree.follow S.child 1 q = some s) (hv : S s = some v) :
    ∃ route, Reached d (some route) (BitVec.ofNat 32 s) v.isDir := by
  induction q using List.reverseRecOn generalizing s v with
  | nil =>
    cases hs
    obtain ⟨u, hu, hd⟩ := tidy.root
    rw [hv] at hu
    cases hu
    rw [hd]
    exact ⟨[], .root⟩
  | append_singleton q k ih =>
    rw [Tree.follow_snoc] at hs
    obtain ⟨p, hp, hc⟩ := Option.bind_eq_some_iff.1 hs
    obtain ⟨i, e, ⟨u, hu, hd, hi, rfl, used⟩, rfl, -⟩ := Store.child_some hc
    obtain ⟨route, hr⟩ := ih hp hu
    rw [hd] at hr
    have ht : Mp4.tableAt d (BitVec.ofNat 32 p) = .ok u.table :=
      rep.tableAt tidy (s := BitVec.ofNat 32 p) (by rw [tidy.toNat_ofNat hu]; exact hu) hd
    have kind : ((u.table.entry i).dir != 0) = v.isDir := by
      obtain ⟨-, w, hw, kind⟩ := tidy.named ⟨u, hu, hd, hi, rfl, used⟩
      rw [hv] at hw
      cases hw
      rw [Bool.eq_iff_iff, ← kind]
      simp
    refine ⟨i :: route, ?_⟩
    rw [← kind, BitVec.ofNat_toNat, BitVec.setWidth_eq]
    exact .entry hr ht hi used

theorem Rep.noLeak (rep : Rep d S) (sound : Sound S) (tight : Tight S) : NoLeak d := by
  have tidy := sound.toTidy
  intro b x hb hx
  rw [rep.diskMap tidy] at hb
  cases hb
  obtain ⟨s, v, hv, mem⟩ := tight.owned hx
  have number := tidy.toNat_ofNat hv
  have fetch : FileHeader.fetchFrom d (BitVec.ofNat 32 s) = .ok v.hdr :=
    rep.fetchHeader tidy.toLaid (by rw [number]; exact hv)
  rcases tight.named hv with rfl | ⟨q, hq⟩
  · exact ⟨none, freeMapSector, false, v.hdr, .map, fetch, mem⟩
  · obtain ⟨route, hr⟩ := rep.reached_of_follow tidy hq hv
    exact ⟨some route, _, _, v.hdr, hr, fetch, by rw [number]; exact mem⟩

namespace Tight

theorem of_fresh {fs : FileSystem} (fresh : Fresh d fs S) : Tight S where
  owned := fresh.exact _
  named hv := by
    rcases fresh.only hv with rfl | rfl
    · exact .inl rfl
    · exact .inr ⟨[], rfl⟩

variable {p i s : Nat} {u v : Node} {parent name : List Byte} {dir : Bool} {L : Nat} {d' : Disk} {b : FreeMap}

theorem put (tight : Tight S) {bytes : List Byte} (hv : S s = some v) (hd : v.isDir = false) (h2 : 2 ≤ s) :
    Tight (S.put s bytes) where
  owned {x} hx := by
    have map : (S.put s bytes).freeMap = S.freeMap := by rw [Store.freeMap, Store.freeMap, Store.put_other S (by omega)]
    rw [map] at hx
    obtain ⟨t, w, hw, mem⟩ := tight.owned hx
    rcases eq_or_ne t s with rfl | hs
    · rw [hv] at hw
      cases hw
      exact ⟨t, _, Store.put_self hv bytes, mem⟩
    · exact ⟨t, w, (Store.put_other S hs bytes).trans hw, mem⟩
  named {t w} hw := by
    rw [Store.child_put hv hd]
    rcases eq_or_ne t s with rfl | hs
    · exact tight.named hv
    · exact tight.named ((Store.put_other S hs bytes).symm.trans hw)

theorem link (tight : Tight S) (sound : Sound S) (made : Created S parent name dir L d' p u i s v b) :
    Tight (S.link p u i name s v b) where
  owned {x} hx := by
    rw [made.link.freeMap_eq sound, made.link.bits] at hx
    rcases hx with mine | old
    · exact ⟨s, v, made.link.at_new sound, mine⟩
    · obtain ⟨t, w, hw, mem⟩ := tight.owned old
      obtain ⟨w', hw', e⟩ := made.link.keeps sound hw
      exact ⟨t, w', hw', by rwa [Node.owned, e]⟩
  named {t w} hw := by
    have g := made.link.grown sound
    have h1 := made.link.ne_one sound
    rcases made.link.files sound hw with ⟨rfl, -⟩ | ⟨-, w₀, h₀, -⟩
    · exact .inr ⟨_, (g.paths sound.rooted h1 made.resolves).2.1⟩
    · rcases tight.named h₀ with h | ⟨q, hq⟩
      · exact .inl h
      · exact .inr ⟨q, g.keeps h1 hq⟩

/-- Unlinking a file without extension headers and without children. -/
theorem unlink (tight : Tight S) (sound : Sound S) (distinct : S.Distinct) (f : Found S parent name p u i s v)
    (unlink : Unlinking S p u i name s v b) (single : v.hdr.exts = []) (leaf : ∀ k, S.child s k = none) :
    Tight (S.unlink p u i s b) where
  owned {x} hx := by
    rw [unlink.freeMap_eq sound, unlink.bits] at hx
    obtain ⟨t, w, hw, mem⟩ := tight.owned hx.1
    have hs : t ≠ s := by
      rintro rfl
      rw [unlink.file] at hw
      cases hw
      apply hx.2
      rwa [Node.owned, FileHeader.owned, single, List.nil_append] at mem
    obtain ⟨w', hw', e⟩ := unlink.keeps sound hs hw
    exact ⟨t, w', hw', by rwa [Node.owned, e]⟩
  named {t w} hw := by
    obtain ⟨hs, w₀, h₀, -⟩ := unlink.files sound hw
    rcases tight.named h₀ with h | ⟨q, hq⟩
    · exact .inl h
    · exact .inr ⟨q, (unlink.pruned sound distinct).keeps_reached sound.rooted f.resolves leaf hq hs⟩

end Tight

/-- What `Removable` says of a file of the store. -/
theorem Rep.removable (rep : Rep d S) (tidy : Tidy S) {s : Word} {v : Node} (hv : S s.toNat = some v)
    (h : Removable d s v.isDir) : v.hdr.exts = [] ∧ ∀ k, S.child s.toNat k = none := by
  have single : v.bytes.length ≤ 3712 → v.hdr.exts = [] := by
    intro le
    have shaped := tidy.shaped hv
    revert shaped
    cases v.hdr with
    | last => exact fun _ => rfl
    | link => exact fun shaped => absurd shaped.2.2.1 (by omega)
  cases hd : v.isDir with
  | false =>
    rw [hd] at h
    obtain ⟨f, hf, le⟩ := h
    rw [rep.openFile tidy.toLaid hv] at hf
    cases hf
    have := tidy.length_le hv
    rw [OpenFile.length, (tidy.shaped hv).fileLength (by omega), maxFileSize_eq] at le
    refine ⟨single (by omega), Store.child_not_dir fun w hw => ?_⟩
    rw [hv] at hw
    cases hw
    exact hd
  | true =>
    rw [hd] at h
    obtain ⟨t, ht, unused⟩ := h
    rw [rep.tableAt tidy hv hd] at ht
    cases ht
    refine ⟨single (by rw [tidy.dirSize hv hd]; decide), fun k => ?_⟩
    rw [Store.child_eq hv hd, Option.map_eq_none_iff, Directory.lookup_none, Directory.findIndex_none]
    exact fun i hi used => absurd (unused i hi) used

/-- **No sector leaks in a run that removes only what `Remove` releases completely.** -/
theorem noLeak_of_reach (reach : Reach system (fun m c => Allowed m c ∧ Releasing m c) m) : NoLeak m.disk := by
  suffices h : ∃ S, Invariant m S ∧ Tight S by
    obtain ⟨S, inv, tight⟩ := h
    exact inv.mounted.rep.noLeak inv.sound tight
  apply reach.invariant fun m => ∃ S, Invariant m S ∧ Tight S
  · rintro m ⟨⟨raw, formatted⟩, closed⟩
    obtain ⟨d, fs, S, e, fresh⟩ := format_spec raw
    rw [e] at formatted
    cases formatted
    exact ⟨S, ⟨fresh.sound, fresh.mounted, fresh.distinct, fun hh => by rw [closed] at hh; cases hh⟩, .of_fresh fresh⟩
  · rintro m c m' ⟨S, inv, tight⟩ ⟨ok, clean⟩ run
    obtain ⟨S', inv', change⟩ := inv.step ok run
    refine ⟨S', inv', ?_⟩
    cases change with
    | same => exact tight
    | linked _ made => exact tight.link inv.sound made
    | @unlinked junk path parent name p i s u v b split f unlink =>
      have tidy := inv.sound.toTidy
      have number := tidy.toNat_ofNat f.file
      have target := inv.mounted.rep.resolve tidy (pathNames path)
      rw [pathNames_eq split, Store.file_eq f.walk f.file, Option.map_some] at target
      have removable := clean _ _ (by rw [pathNames_eq split, target])
      obtain ⟨single, leaf⟩ := inv.mounted.rep.removable tidy (s := BitVec.ofNat 32 s) (by rw [number]; exact f.file) removable
      exact tight.unlink inv.sound inv.distinct f unlink single (by rw [number] at leaf; exact leaf)
    | written hv hd h2 _ => exact tight.put hv hd h2

theorem noLeak_of_removal : ∃ m₀ m₁ m₂ m₃, system.init m₀ ∧
    m₀.run (.createDirectory 0 (pathString [.single 100 (by decide)])) = .ok m₁ ∧
    m₁.run (.create 0 (pathString [.single 100 (by decide), .single 102 (by decide)]) 200) = .ok m₂ ∧
    m₂.run (.remove 0 (pathString [.single 100 (by decide), .single 102 (by decide)])) = .ok m₃ ∧ NoLeak m₃.disk := by
  obtain ⟨d, fs, S, formatted, fresh⟩ := format_spec fun _ => .tabulate fun _ => 0
  have init : system.init ⟨d, fs, fun _ => none⟩ := ⟨⟨_, formatted⟩, fun _ => rfl⟩
  obtain ⟨d₁, d₂, S₂, parent, s, v, call₁, call₂, ok₂, inv, -, nested⟩ :=
    fresh.nested (.single 100 (by decide)) (.single 102 (by decide)) 200 (by decide)
  have ok₁ : Allowed ⟨d, fs, fun _ => none⟩ (.createDirectory 0 (pathString [.single 100 (by decide)])) := fresh.dirParents _
  have tidy := inv.sound.toTidy
  have file := nested.named
  have number := tidy.toNat_ofNat nested.file
  have below : tokens parent ≠ [] := by
    rw [nested.tokens]
    simp
  obtain ⟨p, u, i, f, -⟩ := inv.mounted.found inv.sound 0 file
  obtain ⟨d₃, b, -, -, call₃⟩ := inv.mounted.remove_found inv.sound 0 nested.split (.of_file file) below f
  have run₁ := Machine.run_createDirectory (m := ⟨d, fs, fun _ => none⟩) call₁
  have run₂ := Machine.run_create (m := ⟨d₁, fs, fun _ => none⟩) call₂
  have run₃ := Machine.run_remove (m := ⟨d₂, fs, fun _ => none⟩) call₃
  have ok₃ : Allowed ⟨d₂, fs, fun _ => none⟩ (.remove 0 (pathString [.single 100 (by decide), .single 102 (by decide)])) := by
    refine ⟨(inv.mounted.rep.dirsAlong tidy).1 ?_, fun top => absurd top ?_⟩
    · rw [parentNames_eq nested.split]
      exact .of_file file
    · rwa [parentNames_eq nested.split]
  -- the file has one header
  have releasing : Releasing ⟨d₂, fs, fun _ => none⟩ (.remove 0 (pathString [.single 100 (by decide), .single 102 (by decide)])) := by
    intro sector dir h
    rw [pathNames_eq nested.split, inv.mounted.rep.resolve tidy, file] at h
    cases h
    have opened := inv.mounted.rep.openFile tidy.toLaid (s := BitVec.ofNat 32 s) (by rw [number]; exact nested.file)
    have length : v.bytes.length = 200 := nested.length
    rw [nested.regular]
    refine ⟨_, opened, ?_⟩
    rw [OpenFile.length, (tidy.shaped nested.file).fileLength (by omega), length, maxFileSize_eq]
    decide
  have reach₂ : Reach system (fun m c => Allowed m c ∧ Releasing m c) ⟨d₂, fs, fun _ => none⟩ :=
    .step (.step (.init init) ⟨ok₁, trivial⟩ run₁) ⟨ok₂, trivial⟩ run₂
  exact ⟨_, _, _, _, init, run₁, run₂, run₃, noLeak_of_reach (reach₂.step ⟨ok₃, releasing⟩ run₃)⟩

/-- An extension header of a removed file stays marked and belongs to no file. -/
theorem Rep.leaks {p i s : Nat} {u v : Node} {name : List Byte} {b : FreeMap} (rep : Rep d (S.unlink p u i s b))
    (sound : Sound S) (unlink : Unlinking S p u i name s v b) {x : Nat} (hx : x ∈ v.hdr.exts) : ¬ NoLeak d := by
  have sound' := unlink.sound_unlink sound
  have mine : x ∈ v.owned s := (v.mem_owned s x).2 (.inr (.inl hx))
  have marked : b.testBit x = true := by
    rw [unlink.bits]
    refine ⟨sound.marked unlink.file x mine, fun hd => ?_⟩
    rcases List.mem_cons.1 hd with rfl | hd
    · exact (List.nodup_cons.1 (sound.heads_nodup unlink.file)).1 hx
    · exact sound.heads_disjoint unlink.file (List.mem_cons_of_mem _ hx) hd
  intro noLeak
  obtain ⟨route, sector, dir, h, hr, hf, mem⟩ := noLeak b x (by rw [rep.diskMap sound'.toTidy, unlink.freeMap_eq sound]) marked
  obtain ⟨w, hw, -⟩ := rep.reached sound'.toTidy hr
  rw [rep.fetchHeader sound'.toLaid hw] at hf
  cases hf
  obtain ⟨hs, w₀, h₀, e, -⟩ := unlink.files sound hw
  rw [← e] at mem
  exact sound.disjoint h₀ unlink.file hs mem mine

/-- Removing a file of 3713 bytes leaks its extension header. -/
theorem leak_of_remove : ∃ m₀ m₁ m₂ m₃, system.init m₀ ∧
    m₀.run (.createDirectory 0 (pathString [.single 100 (by decide)])) = .ok m₁ ∧
    m₁.run (.create 0 (pathString [.single 100 (by decide), .single 102 (by decide)]) 3713) = .ok m₂ ∧
    m₂.run (.remove 0 (pathString [.single 100 (by decide), .single 102 (by decide)])) = .ok m₃ ∧ ¬ NoLeak m₃.disk := by
  obtain ⟨d, fs, S, formatted, fresh⟩ := format_spec fun _ => .tabulate fun _ => 0
  have init : system.init ⟨d, fs, fun _ => none⟩ := ⟨⟨_, formatted⟩, fun _ => rfl⟩
  obtain ⟨d₁, d₂, S₂, parent, s, v, call₁, call₂, -, inv, -, nested⟩ :=
    fresh.nested (.single 100 (by decide)) (.single 102 (by decide)) 3713 (by decide)
  have file := nested.named
  obtain ⟨p, u, i, f, -⟩ := inv.mounted.found inv.sound 0 file
  obtain ⟨d₃, b, unlink, rep, call₃⟩ := inv.mounted.remove_found inv.sound 0 nested.split (.of_file file)
    (by rw [nested.tokens]; simp) f
  refine ⟨_, _, _, _, init, Machine.run_createDirectory call₁, Machine.run_create (m := ⟨d₁, fs, fun _ => none⟩) call₂,
    Machine.run_remove (m := ⟨d₂, fs, fun _ => none⟩) call₃, ?_⟩
  -- a chain of two links
  have shaped := inv.sound.shaped nested.file
  rw [nested.length, show allocLength 3713 = 3713 from rfl] at shaped
  cases hdr : v.hdr with
  | last disk =>
    rw [hdr] at shaped
    exact absurd shaped.1.le (by omega)
  | link disk next => exact rep.leaks inv.sound unlink (x := disk.nextSector.toNat) (by rw [hdr, FileHeader.exts]; simp)

end Nachos.Mp4
