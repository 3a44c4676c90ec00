import Mathlib.Algebra.Order.Group.Nat
import Nachos.Base.CString

/-!
# String functions on buffers

`strlen`, `strcpy`, `strncpy` and `strtok` on the bytes that follow a pointer, up to the end of its
buffer; an access behind that end gives `none`. `strtok` has the buffer and the position it has saved as
its state. Nothing here depends on a particular program.
-/

namespace StringBuffer
open Bytes

variable {b b' dst rest w : List Byte} {i n : ℕ} {delim : Byte}

/-! ## The functions -/

def load (b : List Byte) (i : ℕ) : Option Byte := b[i]?

def store (b : List Byte) (i : ℕ) (x : Byte) : Option (List Byte) := if i < b.length then some (b.set i x) else none

def strlen : List Byte → Option ℕ
  | [] => none
  | c :: b => if c = 0 then some 0 else (strlen b).map (· + 1)

def strcpy : List Byte → List Byte → Option (List Byte)
  | _, [] => none
  | [], _ => none
  | _ :: dst, c :: src => if c = 0 then some (0 :: dst) else (strcpy dst src).map (c :: ·)

/-- The zero bytes that `strncpy` stores behind a string. -/
def pad : ℕ → List Byte → Option (List Byte)
  | 0, dst => some dst
  | _ + 1, [] => none
  | n + 1, _ :: dst => (pad n dst).map (0 :: ·)

def strncpy : List Byte → List Byte → ℕ → Option (List Byte)
  | dst, _, 0 => some dst
  | [], _, _ + 1 => none
  | _, [], _ + 1 => none
  | dst@(_ :: dst'), c :: src, n + 1 => if c = 0 then pad (n + 1) dst else (strncpy dst' src n).map (c :: ·)

def strspn (delim : Byte) : List Byte → Option ℕ
  | [] => none
  | c :: b => if c = delim then (strspn delim b).map (· + 1) else some 0

def strcspn (delim : Byte) : List Byte → Option ℕ
  | [] => none
  | c :: b => if c = 0 ∨ c = delim then some 0 else (strcspn delim b).map (· + 1)

/-- `strtok` from the position `i`: the buffer, the position it saves, and that of the token. -/
def strtok (delim : Byte) (b : List Byte) (i : ℕ) : Option (List Byte × ℕ × Option ℕ) := do
  let start := i + (← strspn delim (b.drop i))
  if (← load b start) = 0 then pure (b, start, none)
  else
    let stop := start + (← strcspn delim (b.drop start))
    if (← load b stop) = 0 then pure (b, stop, some start) else pure (← store b stop 0, stop + 1, some start)

/-! ## Strings -/

/-- The string that starts at a pointer. -/
def Holds (b w : List Byte) : Prop := 0 ∉ w ∧ ∃ rest, b = w ++ 0 :: rest

theorem Holds.cstr (holds : Holds b w) : cstr b = w := by
  obtain ⟨plain, rest, rfl⟩ := holds
  exact cstr_terminated plain rest

theorem Holds.length_lt (holds : Holds b w) : w.length < b.length := by
  obtain ⟨-, rest, rfl⟩ := holds
  rw [List.length_append, List.length_cons]
  omega

theorem strlen_ok (holds : Holds b w) : strlen b = some w.length := by
  obtain ⟨plain, rest, rfl⟩ := holds
  induction w with
  | nil => exact if_pos rfl
  | cons c w ih =>
    obtain ⟨this, others⟩ := not_or.1 (List.mem_cons.not.1 plain)
    rw [List.cons_append, strlen, if_neg (Ne.symm this), ih others]
    rfl

/-- `strcpy` leaves what stands behind the string. -/
theorem strcpy_ok (holds : Holds b w) (fits : w.length < dst.length) :
    strcpy dst b = some (w ++ 0 :: dst.drop (w.length + 1)) := by
  obtain ⟨plain, rest, rfl⟩ := holds
  induction w generalizing dst with
  | nil =>
    cases dst with
    | nil => exact absurd fits (by simp)
    | cons d dst => exact if_pos rfl
  | cons c w ih =>
    cases dst with
    | nil => exact absurd fits (by simp)
    | cons d dst =>
      obtain ⟨this, others⟩ := not_or.1 (List.mem_cons.not.1 plain)
      rw [List.cons_append, strcpy, if_neg (Ne.symm this), ih (by simpa using fits) others]
      rfl

theorem pad_ok (fits : n ≤ dst.length) : pad n dst = some (List.replicate n 0 ++ dst.drop n) := by
  induction n generalizing dst with
  | zero => rfl
  | succ n ih =>
    cases dst with
    | nil => exact absurd fits (by simp)
    | cons d dst =>
      rw [pad, ih (by simpa using fits)]
      rfl

/-- `strncpy` of a shorter string fills up with zero bytes. -/
theorem strncpy_ok (holds : Holds b w) (short : w.length ≤ n) (fits : n ≤ dst.length) :
    strncpy dst b n = some (w ++ List.replicate (n - w.length) 0 ++ dst.drop n) := by
  obtain ⟨plain, rest, rfl⟩ := holds
  induction w generalizing dst n with
  | nil =>
    cases n with
    | zero => simp [strncpy]
    | succ n =>
      cases dst with
      | nil => exact absurd fits (by simp)
      | cons d dst =>
        rw [List.nil_append, strncpy, if_pos rfl, pad_ok fits]
        rfl
  | cons c w ih =>
    cases n with
    | zero => exact absurd short (by simp)
    | succ n =>
      cases dst with
      | nil => exact absurd fits (by simp)
      | cons d dst =>
        obtain ⟨this, others⟩ := not_or.1 (List.mem_cons.not.1 plain)
        rw [List.cons_append, strncpy, if_neg (Ne.symm this), ih (by simpa using short) (by simpa using fits) others]
        simp

/-- `strcpy` leaves the string in the buffer. -/
theorem strcpy_holds (holds : Holds b w) (fits : w.length < dst.length) :
    ∃ dst', strcpy dst b = some dst' ∧ Holds dst' w ∧ dst'.length = dst.length := by
  refine ⟨_, strcpy_ok holds fits, ⟨holds.1, _, rfl⟩, ?_⟩
  simp only [List.length_append, List.length_cons, List.length_drop]
  omega

/-- So does `strncpy` of a shorter string. -/
theorem strncpy_holds (holds : Holds b w) (short : w.length < n) (fits : n ≤ dst.length) :
    ∃ dst', strncpy dst b n = some dst' ∧ Holds dst' w ∧ dst'.length = dst.length := by
  have some : n - w.length = n - w.length - 1 + 1 := by omega
  refine ⟨_, strncpy_ok holds short.le fits, ⟨holds.1, List.replicate (n - w.length - 1) 0 ++ dst.drop n, ?_⟩, ?_⟩
  · rw [some, List.replicate_succ, List.append_assoc, List.cons_append]
    rfl
  · simp only [List.length_append, List.length_replicate, List.length_drop]
    omega

/-! ## The components of a string -/

/-- What stands between delimiters, where that is not empty. -/
def components (delim : Byte) (w : List Byte) : List (List Byte) := (w.splitOn delim).filter (· ≠ [])

theorem components_append (delim : Byte) (v w : List Byte) :
    components delim (v ++ delim :: w) = components delim v ++ components delim w := by
  rw [components, List.splitOn_append_cons_self, List.filter_append]
  rfl

theorem components_nil (delim : Byte) : components delim [] = [] := rfl

theorem components_cons (delim : Byte) (w : List Byte) : components delim (delim :: w) = components delim w :=
  components_append delim [] w

theorem components_word (word : delim ∉ w) (some : w ≠ []) : components delim w = [w] := by
  rw [components, List.splitOn_eq_singleton word]
  simpa using some

/-! ## `strtok` -/

/-- A string that starts at a position of a buffer. -/
def HoldsAt (b : List Byte) (i : ℕ) (w : List Byte) : Prop := Holds (b.drop i) w

/-- `strspn` passes the delimiters before a string. -/
theorem strspn_ok (delim : Byte) (nonzero : delim ≠ 0) (holds : Holds b w) : ∃ n, strspn delim b = some n ∧
    ∃ v, Holds (b.drop n) v ∧ components delim v = components delim w ∧ v.length ≤ w.length ∧ v.head? ≠ some delim := by
  induction w generalizing b with
  | nil =>
    obtain ⟨plain, rest, rfl⟩ := holds
    exact ⟨0, if_neg nonzero.symm, [], ⟨plain, rest, rfl⟩, rfl, le_rfl, by simp⟩
  | cons c w ih =>
    obtain ⟨plain, rest, rfl⟩ := holds
    obtain ⟨this, others⟩ := not_or.1 (List.mem_cons.not.1 plain)
    by_cases same : c = delim
    · subst same
      obtain ⟨n, passed, v, held, comps, le, first⟩ := ih ⟨others, rest, rfl⟩
      refine ⟨n + 1, ?_, v, held, comps.trans (components_cons c w).symm, le.trans (Nat.le_succ _), first⟩
      rw [List.cons_append, strspn, if_pos rfl, passed]
      rfl
    · refine ⟨0, ?_, c :: w, ⟨plain, rest, rfl⟩, rfl, le_rfl, by simpa using same⟩
      rw [List.cons_append, strspn, if_neg same]

/-- `strcspn` passes a word. -/
theorem strcspn_ok (delim : Byte) (holds : Holds b w) : ∃ t u, w = t ++ u ∧ strcspn delim b = some t.length ∧ delim ∉ t ∧
    (u = [] ∨ ∃ u', u = delim :: u') := by
  induction w generalizing b with
  | nil =>
    obtain ⟨plain, rest, rfl⟩ := holds
    exact ⟨[], [], rfl, if_pos (.inl rfl), by simp, .inl rfl⟩
  | cons c w ih =>
    obtain ⟨plain, rest, rfl⟩ := holds
    obtain ⟨this, others⟩ := not_or.1 (List.mem_cons.not.1 plain)
    by_cases same : c = delim
    · exact ⟨[], c :: w, rfl, if_pos (.inr same), by simp, .inr ⟨w, same ▸ rfl⟩⟩
    · obtain ⟨t, u, rfl, passed, word, stop⟩ := ih ⟨others, rest, rfl⟩
      refine ⟨c :: t, u, rfl, ?_, by simp [word, Ne.symm same], stop⟩
      rw [List.cons_append, strcspn, if_neg (not_or.2 ⟨Ne.symm this, same⟩), passed]
      rfl

theorem HoldsAt.skip {v : List Byte} (holds : Holds ((b.drop i).drop n) v) : HoldsAt b (i + n) v := by
  rwa [List.drop_drop] at holds

/-- What stands at a position where a string starts. -/
theorem load_eq (holds : HoldsAt b i w) : load b i = some (w.headD 0) := by
  obtain ⟨-, rest, eq⟩ := holds
  have first : load b i = (b.drop i).head? := by
    rw [load, List.head?_drop]
  rw [first, eq]
  cases w <;> rfl

/-- The token at the start of a string, and what stops it. -/
theorem token_ok (holds : HoldsAt b i w) (some : w ≠ []) (first : w.head? ≠ Option.some delim) :
    ∃ t u, w = t ++ u ∧ t ≠ [] ∧ delim ∉ t ∧ strcspn delim (b.drop i) = Option.some t.length ∧ HoldsAt b (i + t.length) u ∧
      (u = [] ∨ ∃ u', u = delim :: u') := by
  obtain ⟨t, u, rfl, passed, word, stop⟩ := strcspn_ok delim holds
  refine ⟨t, u, rfl, ?_, word, passed, HoldsAt.skip ?_, stop⟩
  · rintro rfl
    obtain rfl | ⟨u, rfl⟩ := stop
    · exact some rfl
    · exact first rfl
  · obtain ⟨plain, rest, eq⟩ := holds
    rw [List.mem_append, not_or] at plain
    exact ⟨plain.2, rest, by rw [eq, List.append_assoc, List.drop_left]⟩

/-- A word that ends at a delimiter becomes a string when that is overwritten. -/
theorem store_ok {t u : List Byte} (holds : HoldsAt b i (t ++ delim :: u)) :
    store b (i + t.length) 0 = some (b.set (i + t.length) 0) ∧ HoldsAt (b.set (i + t.length) 0) i t ∧
      HoldsAt (b.set (i + t.length) 0) (i + t.length + 1) u := by
  obtain ⟨plain, rest, eq⟩ := holds
  rw [List.mem_append, List.mem_cons, not_or, not_or] at plain
  have length := congrArg List.length eq
  simp only [List.length_drop, List.length_append, List.length_cons] at length
  refine ⟨if_pos (by omega), ⟨plain.1, u ++ 0 :: rest, ?_⟩, plain.2.2, rest, ?_⟩
  · rw [List.drop_set, if_neg (by omega), Nat.add_sub_cancel_left, eq, List.append_assoc, List.set_append_right _ _ le_rfl,
      Nat.sub_self, List.cons_append, List.set_cons_zero]
  · rw [List.drop_set, if_pos (Nat.lt_succ_self _), Nat.add_assoc, ← List.drop_drop, eq, List.append_assoc,
      List.drop_append, List.drop_of_length_le (Nat.le_succ _), Nat.add_sub_cancel_left]
    rfl

/-- **`strtok` gives the first component**, and what it saves are the others. -/
theorem strtok_ok (nonzero : delim ≠ 0) (holds : HoldsAt b i w) : ∃ b' j, b'.length = b.length ∧
    ((strtok delim b i = some (b', j, none) ∧ components delim w = []) ∨
    ∃ start t v, strtok delim b i = some (b', j, some start) ∧ HoldsAt b' start t ∧ HoldsAt b' j v ∧
      components delim w = t :: components delim v ∧ v.length < w.length) := by
  obtain ⟨n, spanned, v, held, comps, le, first⟩ := strspn_ok delim nonzero holds
  have at_start := HoldsAt.skip held
  have started : strtok delim b i = if v.headD 0 = 0 then some (b, i + n, none) else
      strcspn delim (b.drop (i + n)) >>= fun k => load b (i + n + k) >>= fun c =>
        if c = 0 then some (b, i + n + k, some (i + n))
        else store b (i + n + k) 0 >>= fun b => some (b, i + n + k + 1, some (i + n)) := by
    unfold strtok
    rw [spanned]
    change (load b (i + n) >>= _) = _
    rw [load_eq at_start]
    rfl
  rw [started]
  cases v with
  | nil => exact ⟨b, i + n, rfl, .inl ⟨if_pos rfl, comps.symm.trans (components_nil delim)⟩⟩
  | cons c v =>
    have nonzeroFirst : (c :: v).headD 0 ≠ 0 := fun zero => held.1 (zero ▸ List.mem_cons_self)
    rw [if_neg nonzeroFirst]
    obtain ⟨t, u, split, some, word, passed, at_stop, stop⟩ := token_ok at_start (List.cons_ne_nil c v) first
    rw [passed]
    rw [split] at at_start comps le
    change ∃ b' j, _ ∧ ((load b (i + n + t.length) >>= _) = _ ∧ _ ∨ ∃ start t' v', (load b (i + n + t.length) >>= _) = _ ∧ _)
    rw [load_eq at_stop]
    obtain rfl | ⟨u, rfl⟩ := stop
    · -- the string ends with the token
      rw [List.append_nil] at at_start comps le
      refine ⟨b, i + n + t.length, rfl, .inr ⟨i + n, t, [], rfl, at_start, at_stop, ?_, ?_⟩⟩
      · rw [← comps, components_word word some, components_nil]
      · exact lt_of_lt_of_le (List.length_pos_of_ne_nil some) le
    · obtain ⟨stored, token, others⟩ := store_ok at_start
      refine ⟨b.set (i + n + t.length) 0, i + n + t.length + 1, List.length_set, .inr ⟨i + n, t, u, ?_, token, others, ?_, ?_⟩⟩
      · change (if delim = 0 then _ else _) = _
        rw [if_neg nonzero, stored]
        rfl
      · rw [← comps, components_append, components_word word some]
        rfl
      · rw [List.length_append, List.length_cons] at le
        omega

/-- The successive results of `strtok`, until it gives `NULL`, for a number of calls. -/
def strtokAll (delim : Byte) : ℕ → List Byte → ℕ → Option (List (List Byte))
  | 0, _, _ => none
  | fuel + 1, b, i => do
    let (b, i, token) ← strtok delim b i
    match token with
    | none => some []
    | some start => (strtokAll delim fuel b i).map (cstr (b.drop start) :: ·)

/-- **`strtok` gives the components** in their order. -/
theorem strtokAll_ok (nonzero : delim ≠ 0) (holds : HoldsAt b i w) {fuel : ℕ} (enough : w.length < fuel) :
    strtokAll delim fuel b i = some (components delim w) := by
  induction fuel generalizing b i w with
  | zero => exact absurd enough (Nat.not_lt_zero _)
  | succ fuel ih =>
    obtain ⟨b', j, -, ⟨done, none⟩ | ⟨start, t, v, done, token, others, comps, less⟩⟩ := strtok_ok nonzero holds
    · rw [strtokAll, done, none]
      rfl
    · rw [strtokAll, done, comps]
      change (strtokAll delim fuel b' j).map _ = _
      rw [ih others (by omega), token.cstr]
      rfl

end StringBuffer
