import Nachos.Base.Loop
import Nachos.Mp4.Disk

/-!
# `Bitmap` and `PersistentBitmap`

`lib/bitmap.cc` and `filesys/pbitmap.cc`: bits in an array of words, `FindAndSet` the
first clear bit. Everything later is stated through `testBit`; the words matter only
for the bytes `PersistentBitmap` reads and writes (`toBytes`, `ofBytes`).
-/

namespace Nachos.Mp4
open Bytes

/-- `BitsInWord`. -/
def bitsInWord : Nat := 32

/-- `numWords` of a bitmap of `numBits` bits. -/
def numWords (numBits : Nat) : Nat := divRoundUp numBits bitsInWord

structure Bitmap (numBits : Nat) where
  map : Vector Word (numWords numBits)

namespace Bitmap
variable {n : Nat}

/-- Word `k` of the map. -/
def word (b : Bitmap n) (k : Nat) : Word := b.map.toList.getD k 0

/-- The map with word `k` replaced. -/
def setWord (b : Bitmap n) (k : Nat) (w : Word) : Bitmap n := ⟨b.map.setIfInBounds k w⟩

/-- `Bitmap::Bitmap`: every bit clear. -/
def empty (n : Nat) : Bitmap n := ⟨Vector.replicate _ 0⟩

/-- The body of `Bitmap::Test`. -/
def testBit (b : Bitmap n) (which : Nat) : Bool := (b.word (which / 32) &&& (1#32 <<< (which % 32))) != 0

/-- The body of `Bitmap::Mark`. -/
def setBit (b : Bitmap n) (which : Nat) : Bitmap n :=
  b.setWord (which / 32) (b.word (which / 32) ||| (1#32 <<< (which % 32)))

/-- The body of `Bitmap::Clear`. -/
def clearBit (b : Bitmap n) (which : Nat) : Bitmap n :=
  b.setWord (which / 32) (b.word (which / 32) &&& ~~~(1#32 <<< (which % 32)))

/-- `ASSERT(which >= 0 && which < numBits)`. -/
def inRange (n : Nat) (which : Word) : Bool := decide (0 ≤ which.toInt) && decide (which.toInt < n)

/-- `Bitmap::Test`. -/
def test (b : Bitmap n) (which : Word) : Exec Bool :=
  if inRange n which then pure (b.testBit which.toNat) else throw .assertion

/-- `Bitmap::Mark`. -/
def mark (b : Bitmap n) (which : Word) : Exec (Bitmap n) :=
  if inRange n which then pure (b.setBit which.toNat) else throw .assertion

/-- `Bitmap::Clear`. -/
def clear (b : Bitmap n) (which : Word) : Exec (Bitmap n) :=
  if inRange n which then pure (b.clearBit which.toNat) else throw .assertion

/-- `Bitmap::FindAndSet`; `none` is `-1`. -/
def findAndSet (b : Bitmap n) : Option (Nat × Bitmap n) :=
  match Loop.firstFrom (fun i => !b.testBit i) n 0 with
  | some i => some (i, b.setBit i)
  | none => none

/-- `Bitmap::NumClear`. -/
def numClear (b : Bitmap n) : Nat := Loop.countFrom (fun i => !b.testBit i) n 0

/-- The bytes of `map`, as `PersistentBitmap::WriteBack` writes them. -/
def toBytes (b : Bitmap n) : List Byte := encode (numWords n) b.word

/-- The map a buffer of bytes is. -/
def ofBytes (n : Nat) (l : List Byte) : Bitmap n := ⟨Vector.ofFn fun k => wordAt l k⟩

/-! ## Words and bits -/

theorem ext_word {a b : Bitmap n} (h : ∀ k < numWords n, a.word k = b.word k) : a = b := by
  obtain ⟨a⟩ := a
  obtain ⟨b⟩ := b
  congr 1
  apply Vector.ext
  intro k hk
  have := h k hk
  simpa [word, List.getD_eq_getElem?_getD, hk] using this

theorem word_setWord (b : Bitmap n) {k : Nat} (hk : k < numWords n) (w : Word) (j : Nat) :
    (b.setWord k w).word j = if j = k then w else b.word j := by
  have len : b.map.toList.length = numWords n := by simp
  simp only [word, setWord, Vector.toList_setIfInBounds, List.getD_eq_getElem?_getD, List.getElem?_set]
  by_cases h : k = j
  · subst h
    simp [len, hk]
  · simp [h, Ne.symm h]

theorem word_ofBytes {l : List Byte} {k : Nat} (hk : k < numWords n) : (ofBytes n l).word k = wordAt l k := by
  simp [word, ofBytes, List.getD_eq_getElem?_getD, hk]

@[simp] theorem length_toBytes (b : Bitmap n) : b.toBytes.length = 4 * numWords n := length_encode _ _

@[simp] theorem ofBytes_toBytes (b : Bitmap n) : ofBytes n b.toBytes = b :=
  ext_word fun _ hk => by rw [word_ofBytes hk, toBytes, wordAt_encode _ hk]

theorem wordIndex_lt {i : Nat} (hi : i < n) : i / 32 < numWords n := by
  unfold numWords divRoundUp bitsInWord
  split <;> omega

/-- `Test` reads one bit of one word. -/
theorem testBit_eq (b : Bitmap n) (i : Nat) : b.testBit i = (b.word (i / 32)).getLsbD (i % 32) := by
  have hlt : i % 32 < 32 := Nat.mod_lt _ (by omega)
  rw [testBit, ← BitVec.twoPow_eq, BitVec.and_twoPow]
  cases h : (b.word (i / 32)).getLsbD (i % 32)
  · simp
  · simp only [if_true, bne_iff_ne, ne_eq]
    intro e
    have := congrArg (fun w => w.getLsbD (i % 32)) e
    simp [hlt] at this

@[simp] theorem testBit_empty (i : Nat) : (empty n).testBit i = false := by
  rw [testBit_eq]
  simp only [word, empty, Vector.toList_replicate, List.getD_eq_getElem?_getD]
  rw [show (List.replicate (numWords n) (0 : Word))[i / 32]?.getD 0 = 0 by
    rw [List.getElem?_replicate]; split <;> rfl]
  simp

theorem testBit_setBit (b : Bitmap n) {i : Nat} (hi : i < n) (j : Nat) :
    (b.setBit i).testBit j = (decide (j = i) || b.testBit j) := by
  have hlt : i % 32 < 32 := Nat.mod_lt _ (by omega)
  rw [testBit_eq, testBit_eq, setBit, word_setWord b (wordIndex_lt hi)]
  by_cases hw : j / 32 = i / 32
  · rw [if_pos hw, hw, ← BitVec.twoPow_eq, BitVec.getLsbD_or, BitVec.getLsbD_twoPow, Bool.or_comm]
    simp only [hlt, decide_true, Bool.true_and]
    congr 1
    exact decide_eq_decide.2 (by omega)
  · have : j ≠ i := by rintro rfl; exact hw rfl
    simp [hw, this]

theorem testBit_clearBit (b : Bitmap n) {i : Nat} (hi : i < n) (j : Nat) :
    (b.clearBit i).testBit j = (!decide (j = i) && b.testBit j) := by
  have hlt : i % 32 < 32 := Nat.mod_lt _ (by omega)
  have hlt' : j % 32 < 32 := Nat.mod_lt _ (by omega)
  rw [testBit_eq, testBit_eq, clearBit, word_setWord b (wordIndex_lt hi)]
  by_cases hw : j / 32 = i / 32
  · rw [if_pos hw, hw, ← BitVec.twoPow_eq, BitVec.getLsbD_and, BitVec.getLsbD_not, BitVec.getLsbD_twoPow, Bool.and_comm]
    congr 1
    have e : decide (i % 32 = j % 32) = decide (j = i) := decide_eq_decide.2 (by omega)
    simp only [hlt, hlt', e, decide_true, Bool.true_and]
  · have : j ≠ i := by rintro rfl; exact hw rfl
    simp [hw, this]

/-! ## The allocation operations -/

theorem inRange_iff {which : Word} (hn : n < 2 ^ 31) : inRange n which = true ↔ which.toNat < n := by
  simp only [inRange, Bool.and_eq_true, decide_eq_true_eq]
  constructor
  · rintro ⟨h0, h1⟩
    exact toNat_lt_of_toInt h0 h1
  · intro h
    rw [toInt_eq_toNat (by omega)]
    omega

/-- `FindAndSet` hands out a clear bit and sets it. -/
theorem findAndSet_some {b b' : Bitmap n} {i : Nat} (h : b.findAndSet = some (i, b')) :
    i < n ∧ b.testBit i = false ∧ b' = b.setBit i := by
  unfold findAndSet at h
  split at h
  · rename_i k hk
    obtain ⟨-, hlt, hp⟩ := Loop.firstFrom_some hk
    cases h
    exact ⟨by omega, by simpa using hp, rfl⟩
  · cases h

/-- `FindAndSet` fails when no bit is clear. -/
theorem findAndSet_none {b : Bitmap n} : b.findAndSet = none ↔ b.numClear = 0 := by
  have none : b.findAndSet = none ↔ Loop.firstFrom (fun i => !b.testBit i) n 0 = none := by
    unfold findAndSet
    split <;> simp [*]
  rw [none, Loop.firstFrom_none, numClear, Loop.countFrom_zero_eq, List.countP_eq_zero]
  simp

/-- Setting a clear bit takes one from the clear count. -/
theorem numClear_setBit {b : Bitmap n} {i : Nat} (hi : i < n) (h : b.testBit i = false) :
    (b.setBit i).numClear + 1 = b.numClear := by
  apply Loop.countFrom_erase hi
  · simp [h]
  · intro j
    simp [testBit_setBit b hi]

theorem numClear_empty (n : Nat) : (empty n).numClear = n := by
  rw [numClear, Loop.countFrom_zero_eq]
  simp

/-- The clear bits `l` of `b` are the ones set in `b'`. -/
structure Taken (b b' : Bitmap n) (l : List Nat) : Prop where
  nodup : l.Nodup
  range : ∀ x ∈ l, x < n
  fresh : ∀ x ∈ l, b.testBit x = false
  bits : ∀ x, b'.testBit x = true ↔ x ∈ l ∨ b.testBit x = true
  count : b'.numClear + l.length = b.numClear

theorem Taken.nil (b : Bitmap n) : Taken b b [] :=
  ⟨.nil, by simp, by simp, by simp, rfl⟩

theorem Taken.perm {b b' : Bitmap n} {l m : List Nat} (h : Taken b b' l) (p : l.Perm m) : Taken b b' m where
  nodup := p.nodup_iff.1 h.nodup
  range x hx := h.range x (p.mem_iff.2 hx)
  fresh x hx := h.fresh x (p.mem_iff.2 hx)
  bits x := by rw [h.bits x, p.mem_iff]
  count := by rw [← p.length_eq, h.count]

theorem Taken.append {b b' b'' : Bitmap n} {l m : List Nat} (h : Taken b b' l) (h' : Taken b' b'' m) :
    Taken b b'' (l ++ m) where
  nodup := by
    refine List.nodup_append.2 ⟨h.nodup, h'.nodup, ?_⟩
    rintro x hl y hm rfl
    have set := (h.bits x).2 (.inl hl)
    rw [h'.fresh x hm] at set
    cases set
  range x hx := (List.mem_append.1 hx).elim (h.range x) (h'.range x)
  fresh x hx := by
    rcases List.mem_append.1 hx with hl | hm
    · exact h.fresh x hl
    · have := h'.fresh x hm
      rw [← Bool.not_eq_true, h.bits] at this
      simpa using fun e => this (.inr e)
  bits x := by rw [h'.bits, h.bits, List.mem_append, ← or_assoc, or_comm (a := x ∈ m)]
  count := by
    have := h.count
    have := h'.count
    rw [List.length_append]
    omega

theorem Taken.of_findAndSet {b b' : Bitmap n} {i : Nat} (h : b.findAndSet = some (i, b')) : Taken b b' [i] := by
  obtain ⟨hi, hf, rfl⟩ := findAndSet_some h
  exact ⟨List.nodup_singleton i, by simpa using hi, by simpa using hf, by simp [testBit_setBit b hi],
    numClear_setBit hi hf⟩

/-- The bits of `l` are the ones cleared in `b'`. -/
def Released (b b' : Bitmap n) (l : List Nat) : Prop :=
  ∀ x, b'.testBit x = true ↔ b.testBit x = true ∧ x ∉ l

theorem Released.nil (b : Bitmap n) : Released b b [] := fun x => by simp

theorem Released.append {b b' b'' : Bitmap n} {l m : List Nat} (h : Released b b' l) (h' : Released b' b'' m) :
    Released b b'' (l ++ m) := fun x => by
  rw [h' x, h x, List.mem_append, not_or, and_assoc]

/-- `Test` and `Clear` of a bit in range. -/
theorem test_eq (hn : n < 2 ^ 31) (b : Bitmap n) {which : Word} (h : which.toNat < n) :
    b.test which = .ok (b.testBit which.toNat) :=
  if_pos ((inRange_iff hn).2 h)

theorem clear_eq (hn : n < 2 ^ 31) (b : Bitmap n) {which : Word} (h : which.toNat < n) :
    b.clear which = .ok (b.clearBit which.toNat) :=
  if_pos ((inRange_iff hn).2 h)

theorem mark_eq (hn : n < 2 ^ 31) (b : Bitmap n) {which : Word} (h : which.toNat < n) :
    b.mark which = .ok (b.setBit which.toNat) :=
  if_pos ((inRange_iff hn).2 h)

theorem Released.clearBit (b : Bitmap n) {i : Nat} (hi : i < n) : Released b (b.clearBit i) [i] := fun x => by
  simp [testBit_clearBit b hi, and_comm]

-- a map of the whole disk is never to be evaluated while a goal is elaborated
attribute [irreducible] ofBytes toBytes empty findAndSet numClear

end Bitmap

end Nachos.Mp4
