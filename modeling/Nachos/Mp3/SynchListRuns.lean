import Nachos.Mp3.SynchListPlaces

/-!
# Synchronized lists under any interleaving

The calls take effect one after the other, each where it stores what becomes of the list; every thread gets
the answers of its calls in that order. No wake-up is lost, and nobody waits beside an item that
nobody comes for.
-/

namespace Nachos.Mp3.SynchList
open Transition
open Synch (Statement Ran)

variable {τ ι α : Type}

/-! ## Who is coming -/

/-- A thread on its way to a test that `Signal` makes of the queue, or one in `RemoveFront` that will test the list
before it sleeps, or take an item. -/
def Comes (queue : List ℕ) (b : ι) : Call ι α → Stage α → List (Statement Empty ι ι) → Prop
  | .append b' _, .signal _, _ => b' = b
  | .append b' _, .release _, todo => b' = b ∧ (.isEmpty b b ∈ todo ∨ .removeFront b b ∈ todo)
  | .removeFront b', .list, todo =>
    b' = b ∧ .newWaiter b b ∉ todo ∧ ∀ n, .append b b n ∉ todo ∧ (.P (.waiter n) ∈ todo → n ∉ queue)
  | .removeFront b', .acquire, _ | .removeFront b', .remove, _ | .removeFront b', .store _ _, _ => b' = b
  | _, _, _ => False

section
variable {queue queue' : List ℕ} {b : ι} {c : Call ι α} {p q : Stage α} {todo rest : List (Statement Empty ι ι)}
  {i : Statement Empty ι ι}

theorem Comes.mono (h : Comes queue b c p todo) (sub : queue' ⊆ queue) : Comes queue' b c p todo := by
  cases c with
  | append b' item => cases p <;> exact h
  | apply b' => cases p <;> exact h
  | removeFront b' =>
    cases p with
    | list =>
      obtain ⟨same, fresh, waits⟩ := h
      exact ⟨same, fresh, fun n => ⟨(waits n).1, fun mem => fun queued => (waits n).2 mem (sub queued)⟩⟩
    | _ => exact h

theorem Comes.object (h : Comes queue b c p todo) : c.object = b := by
  cases c with
  | append b' item =>
    cases p with
    | signal => exact h
    | release => exact h.1
    | _ => exact h.elim
  | apply b' => cases p <;> exact h.elim
  | removeFront b' =>
    cases p with
    | list => exact h.1
    | acquire => exact h
    | remove => exact h
    | store => exact h
    | _ => exact h.elim

variable [DecidableEq α] {xs : List α} {wait : ℕ → Option ι} {h : Bool} {f : Synch.Call Empty ι ι}

omit [DecidableEq α] in
theorem Comes.enters (comes : Comes queue b c p []) (enters : Enters xs c p q f) :
    (c.object = b ∧ xs = []) ∨ Comes queue b c q f.body := by
  cases enters with
  | wait b' empty => exact .inl ⟨comes.object, empty⟩
  | acquire c =>
    right
    cases c with
    | removeFront b' =>
      obtain rfl : b' = b := comes
      simp [Comes, Synch.Call.body, Synch.acquire]
    | _ => exact comes.elim
  | signal c a =>
    right
    cases c with
    | append b' item =>
      obtain rfl : b' = b := comes
      simp [Comes, Synch.Call.body, Synch.signal, Call.object]
    | _ => exact comes.elim
  | release c a =>
    cases c with
    | append b' item => simp [Comes] at comes
    | _ => exact comes.elim

variable [DecidableEq τ] [DecidableEq ι] {s s' : Synch.State τ Empty ι ι} {t : τ}

/-- A thread that comes goes on coming, unless it finds the queue empty or takes a waiter from it. -/
theorem Comes.ran (comes : Comes queue b c p (i :: rest)) (st : Standing xs (s.waitQueue c.object) (cond s) c p h (i :: rest))
    (ran : Ran s t rest i s') (todo : s.todo t = i :: rest) :
    s.waitQueue b = [] ∨ i = .removeFront b b ∨ Comes queue b c p (s'.todo t) := by
  obtain rfl := comes.object
  cases st with
  | wait | new | free => simp [Comes] at comes
  | append b n => exact absurd List.mem_cons_self (comes.2.2 n).1
  | leaving c | cleared c | permit c => cases c <;> simp [Comes] at comes
  | acquire c =>
    right
    right
    cases ran with
    | sleep x =>
      rw [Synch.State.setSemaphore_todo, todo]
      exact comes
    | take x =>
      rw [Synch.State.setTodo_self]
      cases c <;> simp [Comes] at comes ⊢
  | asleep b n =>
    right
    right
    cases ran with
    | sleep x =>
      rw [Synch.State.setSemaphore_todo, todo]
      exact comes
    | take x =>
      rw [Synch.State.setTodo_self]
      simp [Comes]
  | acquired =>
    right
    right
    cases ran
    rw [Synch.State.setTodo_self]
    cases c <;> simp [Comes] at comes ⊢
  | unlock | clear | unlocked =>
    right
    right
    cases ran
    rw [Synch.State.setTodo_self]
    simpa [Comes] using comes
  | signalled =>
    right
    right
    cases ran
    rw [Synch.State.setTodo_self]
    simp [Comes]
  | test =>
    cases ran with
    | noWaiter _ _ none => exact .inl none
    | someWaiter _ _ some =>
      right
      right
      rw [Synch.State.setTodo_self]
      simp [Comes]
  | front => exact .inr (.inl rfl)

end

namespace State

variable [DecidableEq τ] [DecidableEq ι] [DecidableEq α] {s s' : State τ ι α} {t u : τ} {b : ι} {c : Call ι α} {p : Stage α}

def Coming (s : State τ ι α) (b : ι) (t : τ) : Prop :=
  match s.place t with
  | none => False
  | some (c, p) => Comes (s.synch.waitQueue b) b c p (s.synch.todo t)

/-- While threads wait each item has a thread that comes for it, or will see that one is woken. -/
def Awaited (s : State τ ι α) (b : ι) : Prop := s.synch.waitQueue b ≠ [] →
  ∃ coming : Finset τ, (s.list b).length ≤ coming.card ∧ ∀ t ∈ coming, s.Coming b t

omit [DecidableEq τ] [DecidableEq ι] [DecidableEq α] in
theorem coming_some (place : s.place t = some (c, p)) : s.Coming b t ↔ Comes (s.synch.waitQueue b) b c p (s.synch.todo t) := by
  rw [Coming, place]

omit [DecidableEq τ] [DecidableEq ι] [DecidableEq α] in
theorem Coming.frame (h : s.Coming b u) (place : s'.place u = s.place u) (todo : s'.synch.todo u = s.synch.todo u)
    (sub : s'.synch.waitQueue b ⊆ s.synch.waitQueue b) : s'.Coming b u := by
  cases inside : s.place u with
  | none =>
    rw [Coming, inside] at h
    exact h.elim
  | some r =>
    obtain ⟨c, p⟩ := r
    rw [coming_some inside] at h
    rw [coming_some (place.trans inside), todo]
    exact h.mono sub

omit [DecidableEq τ] [DecidableEq ι] [DecidableEq α] in
theorem awaited_of_empty (empty : s.list b = []) : s.Awaited b := by
  intro waits
  exact ⟨∅, by simp [empty], by simp⟩

omit [DecidableEq τ] [DecidableEq ι] [DecidableEq α] in
/-- Nobody leaves. -/
theorem Awaited.stay (h : s.Awaited b) (waits : s'.synch.waitQueue b ≠ [] → s.synch.waitQueue b ≠ [])
    (list : (s'.list b).length ≤ (s.list b).length) (stay : ∀ u, s.Coming b u → s'.Coming b u) : s'.Awaited b := by
  intro some
  obtain ⟨coming, enough, comes⟩ := h (waits some)
  exact ⟨coming, list.trans enough, fun u mem => stay u (comes u mem)⟩

omit [DecidableEq ι] [DecidableEq α] in
/-- A thread leaves with an item. -/
theorem Awaited.takes (h : s.Awaited b) (waits : s'.synch.waitQueue b ≠ [] → s.synch.waitQueue b ≠ [])
    (list : (s'.list b).length + 1 = (s.list b).length) (stay : ∀ u, u ≠ t → s.Coming b u → s'.Coming b u) : s'.Awaited b := by
  intro some
  obtain ⟨coming, enough, comes⟩ := h (waits some)
  refine ⟨coming.erase t, ?_, fun u mem => ?_⟩
  · have fewer : coming.card - 1 ≤ (coming.erase t).card := Finset.pred_card_le_card_erase
    omega
  · obtain ⟨ne, mem⟩ := Finset.mem_erase.1 mem
    exact stay u ne (comes u mem)

omit [DecidableEq ι] [DecidableEq α] in
/-- A thread that did not come brings an item. -/
theorem Awaited.brings (h : s.Awaited b) (waits : s'.synch.waitQueue b ≠ [] → s.synch.waitQueue b ≠ [])
    (list : (s'.list b).length = (s.list b).length + 1) (away : ¬ s.Coming b t) (joins : s'.Coming b t)
    (stay : ∀ u, s.Coming b u → s'.Coming b u) : s'.Awaited b := by
  intro some
  obtain ⟨coming, enough, comes⟩ := h (waits some)
  refine ⟨insert t coming, ?_, fun u mem => ?_⟩
  · rw [Finset.card_insert_of_notMem fun mem => away (comes t mem)]
    omega
  · rcases Finset.mem_insert.1 mem with rfl | mem
    · exact joins
    · exact stay u (comes u mem)

omit [DecidableEq ι] [DecidableEq α] in
/-- A thread leaves, and another one comes in its place. -/
theorem Awaited.replaces (h : s.Awaited b) (waits : s'.synch.waitQueue b ≠ [] → s.synch.waitQueue b ≠ [])
    (list : (s'.list b).length ≤ (s.list b).length) (away : ¬ s.Coming b u) (joins : s'.Coming b u)
    (stay : ∀ v, v ≠ t → s.Coming b v → s'.Coming b v) : s'.Awaited b := by
  intro some
  obtain ⟨coming, enough, comes⟩ := h (waits some)
  have fewer : coming.card - 1 ≤ (coming.erase t).card := Finset.pred_card_le_card_erase
  have new : u ∉ coming.erase t := fun mem => away (comes u (Finset.mem_of_mem_erase mem))
  refine ⟨insert u (coming.erase t), ?_, fun v mem => ?_⟩
  · rw [Finset.card_insert_of_notMem new]
    omega
  · rcases Finset.mem_insert.1 mem with rfl | mem
    · exact joins
    · obtain ⟨ne, mem⟩ := Finset.mem_erase.1 mem
      exact stay v ne (comes v mem)

namespace Sound

variable (h : s.Sound)

include h

/-- The thread that is taken from the queue did not come, and comes now. -/
theorem woken {n : ℕ} {ns : List ℕ} (front : s.synch.waitQueue b = n :: ns) : ∃ u, s.place u = some (.removeFront b, .list) ∧
    .P (.waiter n) ∈ s.synch.todo u ∧ ¬ s.Coming b u ∧ Comes ns b (.removeFront b : Call ι α) .list (s.synch.todo u) := by
  obtain ⟨u, queued⟩ := h.waits.front front
  have blocked : ¬ s.synch.Freed n := by simp [Synch.State.Freed, queued]
  have once := h.waits.once n _ queued
  rw [h.waits.passed_eq_zero h.sound blocked] at once
  have inside : .P (.waiter n) ∈ s.synch.todo u := List.count_pos_iff.1 (by simp only at once; omega)
  have nodup := h.waits.nodup b
  rw [front, List.nodup_cons] at nodup
  cases place : s.place u with
  | none =>
    obtain ⟨idle, -⟩ := (stands_none place).1 (h.stands u)
    rw [idle] at inside
    cases inside
  | some r =>
    obtain ⟨c, p⟩ := r
    obtain ⟨holds, st, -⟩ := h.standing place
    obtain ⟨b', rfl, rfl, mine, fresh, first, only⟩ := st.waiting inside
    obtain rfl : b' = b := Option.some.inj (mine.symm.trans (by simp [cond, queued]))
    refine ⟨u, place, inside, ?_, rfl, fresh, fun m => ⟨fun mem => ?_, fun mem => ?_⟩⟩
    · rw [coming_some place]
      intro comes
      exact (comes.2.2 n).2 inside (by rw [front]; exact List.mem_cons_self)
    · obtain ⟨rfl, rest, todo⟩ := first m mem
      cases (h.waits.appending u b' b' m ⟨rest, todo⟩).symm.trans queued
    · obtain rfl := only m mem
      exact nodup.1

/-- What a function of `synch.cc` does to the queue. -/
theorem queue_cases {i : Statement Empty ι ι} {rest : List (Statement Empty ι ι)} {synch : Synch.State τ Empty ι ι}
    (place : s.place t = some (c, p)) (todo : s.synch.todo t = i :: rest) (ran : Ran s.synch t rest i synch) (b : ι) :
    s.list b = [] ∨ (∃ n ns, i = .removeFront b b ∧ s.synch.waitQueue b = n :: ns ∧ synch.waitQueue b = ns) ∨
      (i ≠ .removeFront b b ∧ synch.waitQueue b = s.synch.waitQueue b) := by
  obtain ⟨holds, st, -⟩ := h.standing place
  rw [todo] at st
  cases ran with
  | append d l n =>
    cases st with
    | append _ _ mine empty =>
      by_cases same : b = d
      · subst same
        exact .inl empty
      · exact .inr (.inr ⟨by simp, by simp [same]⟩)
  | removeFront d l n ns front =>
    cases st with
    | front _ item a some =>
      by_cases same : b = d
      · subst same
        exact .inr (.inl ⟨n, ns, rfl, front, by simp⟩)
      · exact .inr (.inr ⟨by simpa using fun eq => absurd eq.symm same, by simp [same]⟩)
  | V x => exact .inr (.inr ⟨by simp, by simp⟩)
  | _ => exact .inr (.inr ⟨by simp, rfl⟩)

theorem synch_awaited {i : Statement Empty ι ι} {rest : List (Statement Empty ι ι)} {synch : Synch.State τ Empty ι ι}
    (awaited : s.Awaited b) (place : s.place t = some (c, p)) (todo : s.synch.todo t = i :: rest)
    (ran : Ran s.synch t rest i synch) : Awaited { s with synch } b := by
  rcases h.queue_cases place todo ran b with empty | ⟨n, ns, rfl, front, after⟩ | ⟨no, same⟩
  · exact awaited_of_empty empty
  · obtain ⟨u, waits, inside, away, comes⟩ := h.woken front
    have other : u ≠ t := by
      rintro rfl
      obtain ⟨holds, st, -⟩ := h.standing place
      rw [todo] at st
      cases st
      cases waits.symm.trans place
    refine awaited.replaces (t := t) (u := u) (fun _ => by simp [front]) le_rfl away ?_ fun v ne coming => ?_
    · rw [coming_some (s := { s with synch }) waits]
      change Comes (synch.waitQueue b) b _ _ (synch.todo u)
      rw [after, ran.todo_of_ne other]
      exact comes
    · refine coming.frame rfl (ran.todo_of_ne ne) ?_
      change synch.waitQueue b ⊆ _
      rw [after, front]
      exact List.subset_cons_self n ns
  · by_cases empty : s.synch.waitQueue b = []
    · intro waits
      exact absurd (same.trans empty) waits
    · refine awaited.stay (fun _ => empty) le_rfl fun v coming => ?_
      rcases eq_or_ne v t with rfl | ne
      · rw [coming_some place] at coming
        rw [coming_some (s := { s with synch }) place]
        change Comes (synch.waitQueue b) b c p (synch.todo v)
        obtain ⟨holds, st, -⟩ := h.standing place
        rw [todo] at coming st
        rw [same]
        exact ((coming.ran st ran todo).resolve_left empty).resolve_left no
      · refine coming.frame rfl (ran.todo_of_ne ne) ?_
        change synch.waitQueue b ⊆ _
        rw [same]
        exact List.Subset.refl _

theorem step_awaited (awaited : s.Awaited b) (step : Stepped s s') : s'.Awaited b := by
  cases step with
  | @synch t c p i rest synch place todo run ran => exact h.synch_awaited awaited place todo ran
  | call t c outside =>
    refine awaited.stay id le_rfl fun u coming => ?_
    have other : u ≠ t := by
      rintro rfl
      rw [Coming, outside] at coming
      exact coming
    exact coming.frame (by simp [other]) rfl (List.Subset.refl _)
  | @enter t c p q f place idle enters =>
    by_cases empty : c.object = b ∧ s.list c.object = []
    · obtain ⟨rfl, empty⟩ := empty
      exact awaited_of_empty empty
    · refine awaited.stay id le_rfl fun u coming => ?_
      rcases eq_or_ne u t with rfl | ne
      · rw [coming_some place, idle] at coming
        rw [coming_some (c := c) (p := q) (by simp)]
        simpa using (coming.enters enters).resolve_left empty
      · exact coming.frame (by simp [ne]) (by simp [ne]) (List.Subset.refl _)
  | @test t b' place idle some =>
    refine awaited.stay id le_rfl fun u coming => ?_
    rcases eq_or_ne u t with rfl | ne
    · rw [coming_some place] at coming
      rw [coming_some (c := .removeFront b') (p := .remove) (by simp)]
      exact coming.object
    · exact coming.frame (by simp [ne]) rfl (List.Subset.refl _)
  | @read t c p a xs place idle reads does =>
    refine awaited.stay id le_rfl fun u coming => ?_
    rcases eq_or_ne u t with rfl | ne
    · rw [coming_some place] at coming
      rw [coming_some (c := c) (p := .store xs a) (by simp)]
      cases c with
      | removeFront b' => exact coming.object
      | append b' item => rcases reads with rfl | rfl <;> exact coming.elim
      | apply b' => exact coming.elim
    · exact coming.frame (by simp [ne]) rfl (List.Subset.refl _)
  | @leave t c a place idle =>
    refine awaited.stay id le_rfl fun u coming => ?_
    have other : u ≠ t := by
      rintro rfl
      rw [coming_some place] at coming
      cases c <;> exact coming.elim
    exact coming.frame (by simp [other]) rfl (List.Subset.refl _)
  | @store t c a xs place idle =>
    have stay (u : τ) (ne : u ≠ t) (coming : s.Coming b u) : (s.store t c xs a).Coming b u :=
      coming.frame (by simp [ne]) rfl (List.Subset.refl _)
    have does := (h.stores place).1
    have there : (s.store t c xs a).Coming b t ↔ Comes (s.synch.waitQueue b) b c (c.after a) (s.synch.todo t) :=
      coming_some (by simp)
    by_cases other : b = c.object
    · subst other
      cases c with
      | append b item =>
        simp only [Call.does, Option.ite_none_left_eq_some, Option.some.injEq, Prod.mk.injEq] at does
        obtain ⟨-, -, rfl⟩ := does
        refine awaited.brings (t := t) id (by simp) ?_ (there.2 rfl) fun u coming => ?_
        · rw [coming_some place]
          exact id
        · rcases eq_or_ne u t with rfl | ne
          · exact there.2 rfl
          · exact stay u ne coming
      | removeFront b =>
        refine awaited.takes (t := t) id ?_ stay
        cases items : s.list b with
        | nil => simp [Call.does, items] at does
        | cons x rest =>
          simp only [Call.does, Call.object, items, Option.some.injEq, Prod.mk.injEq] at does
          obtain ⟨-, rfl⟩ := does
          simp [items]
      | apply b =>
        simp only [Call.does, Option.some.injEq, Prod.mk.injEq] at does
        obtain ⟨-, rfl⟩ := does
        refine awaited.stay id (by simp) fun u coming => ?_
        rcases eq_or_ne u t with rfl | ne
        · exact ((coming_some place).1 coming).elim
        · exact stay u ne coming
    · refine awaited.stay id (by simp [other]) fun u coming => ?_
      rcases eq_or_ne u t with rfl | ne
      · exact absurd ((coming_some place).1 coming).object.symm other
      · exact stay u ne coming

end Sound

end State

end Nachos.Mp3.SynchList
