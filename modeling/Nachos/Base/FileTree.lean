import Mathlib.Data.Set.Card
import Mathlib.Logic.Function.Basic
import Nachos.Base.Cursor
import Nachos.Base.Tree

/-!
# A tree of files

What a file system is for: directories name files of fixed length, descriptors read and write them at
a position, and space is counted. Neither where the bytes lie nor how directories are kept shows here.
-/

/-- A directory, or a file with its contents. -/
inductive FileTree.File (α : Type) where
  | directory
  | regular (contents : List α)

/-- The files, what directories call them, the space that is left and the open files with their positions. -/
structure FileTree (ι κ α : Type) where
  file : ι → Option (FileTree.File α)
  child : ι → κ → Option ι
  free : ℕ
  opened : ℕ → Option (ι × ℕ)

namespace FileTree

/-- The most names of a directory, its length, and the space that files of a length take and give back. -/
structure Limits where
  names : ℕ
  directory : ℕ
  cost : ℕ → ℕ
  refund : ℕ → ℕ

/-- The calls; a file is named by its directory and a name in it. -/
inductive Call (κ α : Type) where
  | create (parent : List κ) (name : κ) (length : ℕ)
  | createDirectory (parent : List κ) (name : κ)
  | remove (parent : List κ) (name : κ)
  | openAs (id : ℕ) (parent : List κ) (name : κ)
  | write (id : ℕ) (src : List α)
  | read (id n : ℕ)
  | seek (id position : ℕ)
  | close (id : ℕ)

inductive Answer (α : Type) where
  | done (ok : Bool)
  | wrote (n : ℤ)
  | read (items : List α)

/-- A root directory with nothing in it. -/
def empty {ι κ α : Type} [DecidableEq ι] (root : ι) (free : ℕ) : FileTree ι κ α where
  file := Function.update (fun _ => none) root (some .directory)
  child _ _ := none
  free := free
  opened _ := none

variable {ι κ α : Type} {T : FileTree ι κ α} {root p n : ι} {name : κ}

@[ext] theorem ext {T T' : FileTree ι κ α} (file : T.file = T'.file) (child : T.child = T'.child) (free : T.free = T'.free)
    (opened : T.opened = T'.opened) : T = T' := by
  cases T
  cases T'
  cases file
  cases child
  cases free
  cases opened
  rfl

/-- The file at a path. -/
def look (T : FileTree ι κ α) (root : ι) (path : List κ) : Option (File α) := (Tree.follow T.child root path).bind T.file

def File.length (limits : Limits) : File α → ℕ
  | .directory => limits.directory
  | .regular contents => contents.length

/-- A file of this length can be made in a directory: the name is free, and there is room in the directory and for the file. -/
def Fits (limits : Limits) (T : FileTree ι κ α) (p : ι) (name : κ) (length : ℕ) : Prop :=
  T.file p = some .directory ∧ T.child p name = none ∧ {k | T.child p k ≠ none}.ncard < limits.names ∧ limits.cost length ≤ T.free

/-- No file, no name and no descriptor. -/
structure Unused (T : FileTree ι κ α) (n : ι) : Prop where
  file : T.file n = none
  named : ∀ p k, T.child p k ≠ some n
  opened : ∀ id position, T.opened id ≠ some (n, position)

section

variable [DecidableEq ι] [DecidableEq κ]

/-- A new file. -/
def link (T : FileTree ι κ α) (p : ι) (name : κ) (n : ι) (file : File α) (cost : ℕ) : FileTree ι κ α where
  file := Function.update T.file n (some file)
  child q k := if q = p ∧ k = name then some n else T.child q k
  free := T.free - cost
  opened := T.opened

/-- The tree without a file, its names and its descriptors. -/
def unlink (T : FileTree ι κ α) (p : ι) (name : κ) (n : ι) (refund : ℕ) : FileTree ι κ α where
  file := Function.update T.file n none
  child q k := if q = n ∨ q = p ∧ k = name then none else T.child q k
  free := T.free + refund
  opened id := (T.opened id).filter fun o => o.1 ≠ n

end

def put [DecidableEq ι] (T : FileTree ι κ α) (n : ι) (contents : List α) : FileTree ι κ α :=
  { T with file := Function.update T.file n (some (.regular contents)) }

def setOpened (T : FileTree ι κ α) (id : ℕ) (o : Option (ι × ℕ)) : FileTree ι κ α :=
  { T with opened := Function.update T.opened id o }

/-- What opening a file gives: directories have nothing to read. -/
def File.opens (n : ι) : File α → Option (ι × ℕ)
  | .directory => none
  | .regular _ => some (n, 0)

/-- One call with its answer. A new file is any that is not in use, with any contents of its length. -/
inductive Step [DecidableEq ι] [DecidableEq κ] (limits : Limits) (root : ι) :
    FileTree ι κ α → Call κ α → Answer α → FileTree ι κ α → Prop where
  | created {T : FileTree ι κ α} {parent : List κ} {name : κ} {length : ℕ} {p n : ι} {contents : List α} :
      Tree.follow T.child root parent = some p → T.Fits limits p name length → T.Unused n → contents.length = length →
      Step limits root T (.create parent name length) (.done true) (T.link p name n (.regular contents) (limits.cost length))
  | refused {T : FileTree ι κ α} {parent : List κ} {name : κ} {length : ℕ} :
      (∀ p, Tree.follow T.child root parent = some p → ¬ T.Fits limits p name length) →
      Step limits root T (.create parent name length) (.done false) T
  | createdDirectory {T : FileTree ι κ α} {parent : List κ} {name : κ} {p n : ι} :
      Tree.follow T.child root parent = some p → T.Fits limits p name limits.directory → T.Unused n →
      Step limits root T (.createDirectory parent name) (.done true) (T.link p name n .directory (limits.cost limits.directory))
  | refusedDirectory {T : FileTree ι κ α} {parent : List κ} {name : κ} :
      (∀ p, Tree.follow T.child root parent = some p → ¬ T.Fits limits p name limits.directory) →
      Step limits root T (.createDirectory parent name) (.done false) T
  | removed {T : FileTree ι κ α} {parent : List κ} {name : κ} {p n : ι} {f : File α} :
      Tree.follow T.child root parent = some p → T.child p name = some n → T.file n = some f →
      Step limits root T (.remove parent name) (.done true) (T.unlink p name n (limits.refund (f.length limits)))
  | opened {T : FileTree ι κ α} {id : ℕ} {parent : List κ} {name : κ} {n : ι} {f : File α} :
      Tree.follow T.child root (parent ++ [name]) = some n → T.file n = some f →
      Step limits root T (.openAs id parent name) (.done true) (T.setOpened id (f.opens n))
  | missing {T : FileTree ι κ α} {id : ℕ} {parent : List κ} {name : κ} :
      Tree.follow T.child root (parent ++ [name]) = none →
      Step limits root T (.openAs id parent name) (.done false) (T.setOpened id none)
  | wrote {T : FileTree ι κ α} {id position : ℕ} {src contents : List α} {n : ι} :
      T.opened id = some (n, position) → T.file n = some (.regular contents) →
      Step limits root T (.write id src) (.wrote (min src.length (contents.length - position) : ℕ))
        ((T.put n (Cursor.splice contents position (src.take (contents.length - position)))).setOpened id
          (some (n, position + min src.length (contents.length - position))))
  | wroteNothing {T : FileTree ι κ α} {id : ℕ} {src : List α} :
      T.opened id = none → Step limits root T (.write id src) (.wrote 0) T
  | read {T : FileTree ι κ α} {id position m : ℕ} {contents : List α} {n : ι} :
      T.opened id = some (n, position) → T.file n = some (.regular contents) →
      Step limits root T (.read id m) (.read ((contents.drop position).take m))
        (T.setOpened id (some (n, position + min m (contents.length - position))))
  | readNothing {T : FileTree ι κ α} {id m : ℕ} : T.opened id = none → Step limits root T (.read id m) (.read []) T
  | seek {T : FileTree ι κ α} {id position : ℕ} :
      Step limits root T (.seek id position) (.done true) (T.setOpened id ((T.opened id).map fun o => (o.1, position)))
  | close {T : FileTree ι κ α} {id : ℕ} : Step limits root T (.close id) (.done true) (T.setOpened id none)

/-- Calls in several sessions: at the end of one, `none`, the descriptors are gone and the files stay. -/
inductive SessionStep [DecidableEq ι] [DecidableEq κ] (limits : Limits) (root : ι) :
    FileTree ι κ α → Option (Call κ α) → Answer α → FileTree ι κ α → Prop where
  | call {T T' : FileTree ι κ α} {c : Call κ α} {a : Answer α} :
      Step limits root T c a T' → SessionStep limits root T (some c) a T'
  | ended {T : FileTree ι κ α} : SessionStep limits root T none (.done true) { T with opened := fun _ => none }

section

variable {child child' : ι → κ → Option ι} [DecidableEq ι] [DecidableEq κ]

/-- A new leaf is a new name and no other change. -/
theorem child_of_grown (g : Tree.Grown child child' p name n) (unnamed : ∀ k, child n k = none) (ne : n ≠ p) :
    child' = fun q k => if q = p ∧ k = name then some n else child q k := by
  funext q k
  rcases eq_or_ne q n with rfl | other
  · rw [g.leaf, unnamed, if_neg fun both => ne both.1]
  · by_cases edge : q = p ∧ k = name
    · obtain ⟨rfl, rfl⟩ := edge
      rw [g.added, if_pos ⟨rfl, rfl⟩]
    · rw [g.others q k other edge, if_neg edge]

/-- A cut takes away a name, and the names in the file. -/
theorem child_of_pruned (g : Tree.Pruned child child' p name n) :
    child' = fun q k => if q = n ∨ q = p ∧ k = name then none else child q k := by
  funext q k
  rcases eq_or_ne q n with rfl | other
  · rw [g.gone, if_pos (.inl rfl)]
  · by_cases edge : q = p ∧ k = name
    · obtain ⟨rfl, rfl⟩ := edge
      rw [g.cut, if_pos (.inr ⟨rfl, rfl⟩)]
    · rw [g.others q k other edge, if_neg fun cut => cut.elim other edge]

end

end FileTree
