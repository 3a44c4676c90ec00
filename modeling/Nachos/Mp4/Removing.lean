import Nachos.Mp4.Creating

/-!
# `Remove`

Below a subdirectory `Remove` unlinks the file its path names, and does nothing where the
path names none. In the root directory it writes the table through the file `OpenDir`
opens at its uninitialised local, which is not modelled further here.
-/

namespace Nachos.Mp4
open Bytes

variable {d d' : Disk} {fs : FileSystem} {S : Store} {p i s : Nat} {u v : Node} {name : List Byte} {m : FreeMap}

/-- `Deallocate` and `Clear` of a live file. -/
theorem Sound.release (sound : Sound S) {s : Word} (h : S s.toNat = some v) : ∃ m₁ m₂,
    v.hdr.deallocate S.freeMap = .ok m₁ ∧ m₁.clear s = .ok m₂ ∧
      ∀ x, m₂.testBit x = true ↔ S.freeMap.testBit x = true ∧ x ∉ s.toNat :: v.hdr.datas := by
  have hn : diskSectors < 2 ^ 31 := by rw [diskSectors_eq]; omega
  have hs := sound.lt h
  obtain ⟨m₁, h₁, rel⟩ := FileHeader.deallocate_spec hn (b := S.freeMap) (sound.shaped h) (sound.datas_nodup h)
    (fun x hx => sound.range h x (v.datas_subset _ hx)) fun x hx => sound.marked h x (v.datas_subset _ hx)
  have all := rel.append (Bitmap.Released.clearBit m₁ hs)
  refine ⟨m₁, m₁.clearBit s.toNat, h₁, Bitmap.clear_eq hn m₁ hs, fun x => ?_⟩
  rw [all x, List.mem_append, List.mem_singleton, List.mem_cons, or_comm]

/-- Rewriting a regular file or the map leaves walks as they are. -/
theorem DirsAlong.put {bytes : List Byte} {ts : List (List Byte)} (h : S s = some v) (hd : v.isDir = false)
    (dirs : DirsAlong S p ts) : DirsAlong (S.put s bytes) p ts := by
  intro q c w hq hc hw
  rw [Store.child_put h hd] at hc
  rcases eq_or_ne c s with rfl | hs
  · have := dirs q c v hq hc h
    rw [hd] at this
    cases this
  · rw [Store.put_other _ hs] at hw
    exact dirs q c w hq hc hw

/-- A file is not the directory that names it. -/
theorem Tidy.ne_of_entry (tidy : Tidy S) {P : List Key} {k : Key} (hp : Tree.follow S.child 1 P = some p)
    (hc : S.child p k = some s) : p ≠ s := by
  rintro rfl
  have : Tree.follow S.child 1 (P ++ [k]) = some p := by rw [Tree.follow_snoc, hp]; exact hc
  have := congrArg List.length (tidy.rooted.path_unique hp this)
  simp at this

theorem Unlinking.mounted (unlink : Unlinking S p u i name s v m) (sound : Sound S) (mounted : Mounted d fs S)
    (rep : Rep d' (S.unlink p u i s m)) : Mounted d' fs (S.unlink p u i s m) := by
  have := unlink.two_le sound
  exact mounted.of_rep rep fun hq => unlink.keeps sound (by omega)

/-- The path names file `s`, entry `i` of directory `p`. -/
structure Found (S : Store) (parent name : List Byte) (p : Nat) (u : Node) (i s : Nat) (v : Node) : Prop where
  resolves : Tree.follow S.child 1 ((tokens parent).map toKey) = some p
  parent : S p = some u
  isDir : u.isDir = true
  found : u.table.findIndex name = some i
  target : (u.table.entry i).sector.toNat = s
  file : S s = some v
  child : S.child p (toKey name) = some s

section
variable (mounted : Mounted d fs S) (sound : Sound S) {path : CString} {parent : List Byte} (junk : Word)
  (split : splitPath path = .ok (parent, name)) (dirs : DirsAlong S 1 (tokens parent))
include mounted sound dirs

/-- The table and sector `Remove` goes on with. -/
theorem Mounted.removeTarget (name : List Byte) :
    (Tree.follow S.child 1 ((tokens parent ++ [name]).map toKey) = none ∧ fs.removeTarget d junk parent name = .ok none) ∨
    ∃ p u i v, Found S parent name p u i (u.table.entry i).sector.toNat v ∧
      fs.removeTarget d junk parent name = .ok (some (u.table, (u.table.entry i).sector)) := by
  have tidy := sound.toTidy
  rw [List.map_append, List.map_singleton, Tree.follow_snoc]
  unfold FileSystem.removeTarget
  rcases mounted.parentTable tidy dirs junk with ⟨hp, -, ht⟩ | ⟨p, u, hp, hu, hd, ht⟩
  · exact .inl ⟨by rw [hp]; rfl, by simp only [ht, ok_bind]; rfl⟩
  simp only [ht, ok_bind]
  rcases tidy.find hu hd name with ⟨hc, hf, -⟩ | ⟨i, e, v, -, hi, rfl, hf, hne, hc, hv, -⟩
  · exact .inl ⟨by rw [hp]; exact hc, by rw [hf]; rfl⟩
  · refine .inr ⟨p, u, i, v, ⟨hp, hu, hd, hi, rfl, hv, hc⟩, ?_⟩
    rw [hf, if_neg hne]
    rfl

include split

/-- **`Remove`** of a path that names nothing leaves the disk, and still reports success. -/
theorem Mounted.remove_absent (none' : Tree.follow S.child 1 ((tokens parent ++ [name]).map toKey) = none) :
    fs.remove d junk path = .ok (true, d) := by
  unfold FileSystem.remove
  simp only [split, ok_bind]
  rcases mounted.removeTarget sound junk dirs name with ⟨-, ht⟩ | ⟨p, u, i, v, f, -⟩
  · simp only [ht, ok_bind]
    rfl
  · rw [List.map_append, List.map_singleton, Tree.follow_snoc, f.resolves] at none'
    have := f.child
    rw [Option.bind_some] at none'
    rw [none'] at this
    cases this

/-- **`Remove`** below a subdirectory unlinks the file. -/
theorem Mounted.remove_found (below : tokens parent ≠ []) (f : Found S parent name p u i s v) :
    ∃ d' m, Unlinking S p u i name s v m ∧ Rep d' (S.unlink p u i s m) ∧ fs.remove d junk path = .ok (true, d') := by
  have tidy := sound.toTidy
  unfold FileSystem.remove
  simp only [split, ok_bind]
  rcases mounted.removeTarget sound junk dirs name with ⟨hn, -⟩ | ⟨p', u', i', v', f', ht⟩
  · rw [List.map_append, List.map_singleton, Tree.follow_snoc, f.resolves, Option.bind_some, f.child] at hn
    cases hn
  -- the file found is the one named
  obtain rfl : p = p' := Option.some.inj (f.resolves.symm.trans f'.resolves)
  obtain rfl : u = u' := Option.some.inj (f.parent.symm.trans f'.parent)
  obtain rfl : i = i' := Option.some.inj (f.found.symm.trans f'.found)
  obtain rfl := f.target
  set sector := (u.table.entry i).sector with hsector
  obtain ⟨m₁, m, h₁, h₂, bits⟩ := sound.release f.file
  have unlink : Unlinking S p u i name sector.toNat v m :=
    ⟨f.parent, f.isDir, f.found, rfl, f.file, tidy.ne_of_entry f.resolves f.child, bits⟩
  have table : (u.table.remove name).getD u.table = unlinkedTable u i := by
    rw [Directory.remove, f.found]
    rfl
  -- the map is written first, while the entry is still there
  obtain ⟨v₀, h₀, size₀, hf₀⟩ := mounted.map tidy
  have kind₀ : v₀.isDir = false := by
    cases hd : v₀.isDir with
    | false => rfl
    | true => exact absurd rfl (tidy.dir_ne_zero h₀ hd)
  have len : m.toBytes.length = v₀.bytes.length := by rw [Bitmap.length_toBytes, freeMapBytes_eq, size₀]
  obtain ⟨d₁, hw₁, rep₁⟩ := mounted.rep.writeMap tidy.toLaid h₀ size₀ hf₀ m
  have tidy₁ : Tidy (S.put 0 m.toBytes) := tidy.put h₀ kind₀ len
  have mounted₁ : Mounted d₁ fs (S.put 0 m.toBytes) := mounted.of_rep rep₁ fun {q w} _ hw => by
    rcases eq_or_ne q 0 with rfl | hq
    · exact ⟨_, Store.put_self hw _, rfl⟩
    · exact ⟨w, (Store.put_other S hq _).trans hw, rfl⟩
  have hp₁ : S.put 0 m.toBytes p = some u := by
    rw [Store.put_other _ (tidy.dir_ne_zero f.parent f.isDir), f.parent]
  have size₁ := tidy.dirSize f.parent f.isDir
  obtain ⟨d₂, hw₂, rep₂, -⟩ := rep₁.writeTable tidy₁.toLaid hp₁ size₁ (f := ⟨u.hdr, 0⟩) rfl (unlinkedTable u i)
  refine ⟨d₂, m, unlink, rep₂.erase _, ?_⟩
  have hwp := mounted₁.writeParent tidy₁ below (dirs.put h₀ kind₀)
    (by rw [Store.child_put h₀ kind₀]; exact f.resolves) hp₁ junk (unlinkedTable u i)
  simp only [ht, ok_bind, mounted.rep.fetchHeader tidy.toLaid f.file, mounted.fetchMap tidy, h₁, h₂, hw₁, table, hwp, hw₂]
  rfl

end

end Nachos.Mp4
