import Nachos.Mp3.Signals

/-!
# What keeps a thread from going on

The permit of a lock is never lost: it lies in the value, or with a thread that has the lock or is about
to. A call of `Wait` is with its thread, in the queue, or with the thread that has removed it from
there. So a thread that is held up is held up by another one, or waits for a signal.
-/

namespace Nachos.Mp3.Synch
open Transition

variable {τ σ κ γ : Type} {s s' : State τ σ κ γ} {t u : τ} {i j : Statement σ κ γ} {rest others : List (Statement σ κ γ)}
  {l : κ} {n : ℕ}

/-! ## Statements in pairs -/

/-- What stands behind a statement that moves the permit. -/
def Statement.Leads : Statement σ κ γ → List (Statement σ κ γ) → Prop
  | .P (.lock l), rest => ∃ others, rest = .setHolder l :: others
  | .clearHolder l, rest => ∃ others, rest = .V (.lock l) :: others
  | _, _ => True

def Paired (todo : List (Statement σ κ γ)) : Prop := ∀ i rest, i :: rest <:+ todo → i.Leads rest

theorem paired_nil : Paired ([] : List (Statement σ κ γ)) := by
  intro i rest suffix
  cases List.suffix_nil.1 suffix

theorem paired_cons : Paired (i :: rest) ↔ i.Leads rest ∧ Paired rest := by
  constructor
  · intro h
    exact ⟨h i rest List.suffix_rfl, fun j others suffix => h j others (suffix.trans (List.suffix_cons i rest))⟩
  · rintro ⟨leads, behind⟩ j others suffix
    rcases List.suffix_cons_iff.1 suffix with eq | suffix
    · obtain ⟨rfl, rfl⟩ := List.cons.inj eq
      exact leads
    · exact behind j others suffix

theorem paired_body (f : Call σ κ γ) : Paired f.body := by
  cases f <;> simp [Call.body, acquire, release, wait, signal, paired_cons, paired_nil, Statement.Leads]

namespace State

/-- There is always a permit: in the value, or with a thread. -/
def Lent (s : State τ σ κ γ) (l : κ) : Prop := (s.semaphore (.lock l)).value ≠ 0 ∨ ∃ t, s.Busy l t

/-- Who will move a call of `Wait` on. -/
def Kept (s : State τ σ κ γ) (n : ℕ) (w : Wait τ γ) : Prop :=
  match w.phase with
  | .made => ∃ l, s.At w.thread (.append w.cond l n)
  | .queued => n ∈ s.waitQueue w.cond
  | .removed t => s.At t (.V (.waiter n))
  | .freed => True

/-- No permit and no call of `Wait` is lost, in every interleaving. -/
structure Permits (s : State τ σ κ γ) : Prop where
  paired : ∀ t, Paired (s.todo t)
  lent : ∀ l, s.Lent l
  kept : ∀ n w, s.waits n = some w → s.Kept n w

end State

/-! ## What a step keeps -/

section
variable [DecidableEq τ] [DecidableEq σ] [DecidableEq κ] [DecidableEq γ] {user : σ → ℕ}

theorem Ran.paired (ran : Ran s t rest i s') (todo : s.todo t = i :: rest) (paired : Paired (s.todo t)) :
    Paired (s'.todo t) := by
  have behind : Paired rest := (paired_cons.1 (todo ▸ paired)).2
  cases ran with
  | sleep x => exact paired
  | newWaiter c l =>
    rw [State.setTodo_self]
    simpa [waitOn, release, acquire, paired_cons, Statement.Leads] using behind
  | someWaiter c l | removeFront c l n ns =>
    rw [State.setTodo_self]
    exact paired_cons.2 ⟨trivial, behind⟩
  | again c l =>
    rw [State.setTodo_self]
    simpa [signal, paired_cons, Statement.Leads] using behind
  | _ =>
    rw [State.setTodo_self]
    exact behind

namespace State

/-- A thread that moves its permit still has it. -/
theorem busy_ran (ran : Ran s t rest i s') (todo : s.todo t = i :: rest) (paired : Paired (s.todo t)) (busy : s.Busy l t)
    (no : i ≠ .V (.lock l)) : s'.Busy l t := by
  have here : s.At t i := ⟨rest, todo⟩
  by_cases clear : i = .clearHolder l
  · subst clear
    obtain ⟨others, rfl⟩ := (paired_cons.1 (todo ▸ paired)).1
    refine .inr (.inr ⟨others, ?_⟩)
    cases ran
    exact setTodo_self
  · rcases busy with held | set | signal
    · exact .inl ((ran.mem_held_iff l).2 (.inr ⟨held, clear⟩))
    · exact .inl ((ran.mem_held_iff l).2 (.inl (here.inj set)))
    · exact absurd (here.inj signal) no

namespace Permits
variable (h : s.Permits) (sound : s.Sound user) (ran : Ran s t rest i s') (todo : s.todo t = i :: rest)

include h sound ran todo

theorem ran_lent (l : κ) : s'.Lent l := by
  have other (u : τ) (ne : u ≠ t) (busy : s.Busy l u) : s'.Busy l u :=
    (busy_congr (ran.held_of_ne ne) (ran.todo_of_ne ne)).2 busy
  rcases ran.semaphore_cases (.lock l) with ⟨rfl, -, zero, eq, same⟩ | ⟨rfl, awake, value, eq⟩ | ⟨rfl, eq⟩ | ⟨-, no, eq⟩
  · obtain ⟨u, busy⟩ := (h.lent l).resolve_left fun value => value zero
    refine .inr ⟨u, ?_⟩
    rcases eq_or_ne u t with rfl | ne
    · exact busy_ran ran todo (h.paired u) busy nofun
    · exact other u ne busy
  · obtain ⟨others, rfl⟩ := (paired_cons.1 (todo ▸ h.paired t)).1
    refine .inr ⟨t, .inr (.inl ⟨others, ?_⟩)⟩
    cases ran with
    | sleep _ _ zero => exact absurd zero value
    | take => exact setTodo_self
  · left
    have nonneg := (sound.semaphores (.lock l)).nonneg
    rw [eq, Semaphore.V_value]
    omega
  · rw [Lent, eq]
    refine (h.lent l).imp_right ?_
    rintro ⟨u, busy⟩
    refine ⟨u, ?_⟩
    rcases eq_or_ne u t with rfl | ne
    · exact busy_ran ran todo (h.paired u) busy no
    · exact other u ne busy

omit h sound in
/-- A call of `Wait` is queued when its thread puts it into the queue. -/
theorem not_same_of_append {c : γ} (append : i = .append c l n) {w : Wait τ γ} (old : s.waits n = some w) (made : w.phase = .made) :
    s'.waits n ≠ s.waits n := by
  subst append
  cases ran
  intro same
  rw [setTodo_waits, setPhase_waits, Function.update_self, setWaitQueue_waits, old, Option.map_some, Option.some.injEq] at same
  rw [← same] at made
  cases made

theorem ran_kept (waits : s.Waits) (w : Wait τ γ) (new : s'.waits n = some w) : s'.Kept n w := by
  have here : s.At t i := ⟨rest, todo⟩
  have after := waits.executed ran todo sound
  obtain ⟨thread, cond, phase⟩ := w
  cases phase with
  | queued => exact (after.queued cond n).2 ⟨thread, new⟩
  | freed => trivial
  | made =>
    cases waits.advances ran todo n with
    | same _ eq =>
      obtain ⟨l, next⟩ := h.kept n _ (eq.symm.trans new)
      refine ⟨l, ?_⟩
      rcases eq_or_ne thread t with rfl | ne
      · exact absurd eq (not_same_of_append ran todo (here.inj next) (eq.symm.trans new) rfl)
      · exact (at_congr (ran.todo_of_ne ne)).2 next
    | made c l next old made =>
      cases made.symm.trans new
      refine ⟨l, ?_⟩
      subst next
      cases ran
      exact ⟨_, setTodo_self⟩
    | queued c l old queued => cases queued.symm.trans new
    | removed w c l old removed => cases removed.symm.trans new
    | freed w c old freed => cases freed.symm.trans new
  | removed u =>
    cases waits.advances ran todo n with
    | same _ eq no =>
      have next : s.At u (.V (.waiter n)) := h.kept n _ (eq.symm.trans new)
      rcases eq_or_ne u t with rfl | ne
      · exact absurd (here.inj next) no
      · exact (at_congr (ran.todo_of_ne ne)).2 next
    | made c l next old made => cases made.symm.trans new
    | queued c l old queued => cases queued.symm.trans new
    | removed w c l old removed =>
      cases removed.symm.trans new
      cases ran with
      | removeFront _ _ m ns front =>
        by_cases first : n = m
        · subst first
          exact ⟨rest, setTodo_self⟩
        · rw [setTodo_waits, setPhase_waits, Function.update_of_ne first, setWaitQueue_waits, old] at new
          cases new
    | freed w c old freed => cases freed.symm.trans new

theorem executed (waits : s.Waits) : s'.Permits where
  paired u := by
    rcases eq_or_ne u t with rfl | ne
    · exact ran.paired todo (h.paired u)
    · rw [ran.todo_of_ne ne]
      exact h.paired u
  lent := h.ran_lent sound ran todo
  kept _ := h.ran_kept sound ran todo waits

omit sound ran todo [DecidableEq σ] [DecidableEq κ] [DecidableEq γ] in
theorem called (idle : s.todo t = []) (f : Call σ κ γ) : (s.setTodo t f.body).Permits := by
  have same (u : τ) (j : Statement σ κ γ) (next : s.At u j) : (s.setTodo t f.body).At u j := by
    refine (at_congr (setTodo_of_ne ?_)).2 next
    rintro rfl
    obtain ⟨others, todo⟩ := next
    cases idle.symm.trans todo
  constructor
  · intro u
    rcases eq_or_ne u t with rfl | ne
    · rw [setTodo_self]
      exact paired_body f
    · rw [setTodo_of_ne ne]
      exact h.paired u
  · intro l
    refine (h.lent l).imp_right ?_
    rintro ⟨u, held | set | signal⟩
    · exact ⟨u, .inl held⟩
    · exact ⟨u, .inr (.inl (same u _ set))⟩
    · exact ⟨u, .inr (.inr (same u _ signal))⟩
  · intro n w waits
    have kept := h.kept n w waits
    obtain ⟨thread, cond, phase⟩ := w
    cases phase with
    | made =>
      obtain ⟨l, next⟩ := kept
      exact ⟨l, same _ _ next⟩
    | queued => exact kept
    | removed u => exact same u _ kept
    | freed => trivial

end Permits

omit [DecidableEq τ] [DecidableEq σ] [DecidableEq κ] [DecidableEq γ] in
theorem permits_initial : (initial user : State τ σ κ γ).Permits where
  paired _ := paired_nil
  lent _ := .inl one_ne_zero
  kept _ _ new := by cases new

theorem Permits.of_reach {allowed : State τ σ κ γ → Event τ σ κ γ → Prop} (reach : Reach (program user) allowed s) : s.Permits := by
  induction reach with
  | init start =>
    obtain rfl := start
    exact permits_initial
  | step before _ done ih =>
    rcases step_cases done with ⟨t, f, -, idle, rfl⟩ | ⟨t, i, rest, -, todo, ran⟩
    · exact ih.called idle f
    · exact ih.executed (Sound.of_reach before) ran todo (Waits.of_reach before)

end State

/-- The queue of a condition variable belongs to the threads that have its lock. -/
theorem State.waitQueue_of_ran {conditionLock : γ → κ} {c : γ} (sound : s.Sound user) (uses : s.Uses conditionLock)
    (ran : Ran s t rest i s') (todo : s.todo t = i :: rest) (alone : conditionLock c ∉ s.held t) : s'.waitQueue c = s.waitQueue c := by
  have ready := sound.ready t i ⟨rest, todo⟩
  have lock : i.Uses conditionLock := uses t i (by rw [todo]; exact List.mem_cons_self)
  cases ran with
  | append d l n | removeFront d l n ns =>
    have ne : c ≠ d := by
      rintro rfl
      exact alone (lock ▸ ready)
    simp [ne]
  | V x => simp
  | _ => rfl

/-- A call of `Wait` keeps its condition variable. -/
theorem State.cond_of_ran {c : γ} (waits : s.Waits) (ran : Ran s t rest i s') (todo : s.todo t = i :: rest)
    (old : (s.waits n).map Wait.cond = some c) : (s'.waits n).map Wait.cond = some c := by
  cases waits.advances ran todo n with
  | same _ eq => rwa [eq]
  | made c l _ none => simp [none] at old
  | queued c l before new | removed w c l before new | freed w c before new =>
    rw [before] at old
    rwa [new]

/-! ## Who can go on -/

namespace State
variable (sound : s.Sound user)

include sound

/-- **A lock that nobody has lets a thread in**, if one is before its `P`. -/
theorem lets_in (h : s.Permits) (free : ∀ u, ¬ s.Busy l u) (comes : s.At t (.P (.lock l))) :
    ∃ u, s.At u (.P (.lock l)) ∧ (s.step (.run u)).isSome := by
  have value : (s.semaphore (.lock l)).value ≠ 0 := by
    refine (h.lent l).resolve_right ?_
    rintro ⟨u, busy⟩
    exact free u busy
  have passes (u : τ) (next : s.At u (.P (.lock l))) (awake : u ∉ (s.semaphore (.lock l)).queue) : (s.step (.run u)).isSome := by
    obtain ⟨others, todo⟩ := next
    rw [step_run todo, exec, if_neg awake, if_neg value]
    rfl
  have semaphore := sound.semaphores (.lock l)
  by_cases awake : t ∈ (s.semaphore (.lock l)).queue
  · -- Each unit has a thread on the way to it.
    have covered := semaphore.covered ⟨t, by rwa [semaphore.sleeping, List.mem_toFinset]⟩
    have nonneg := semaphore.nonneg
    obtain ⟨u, signalled⟩ := Finset.card_pos.1 (show 0 < (s.semaphore (.lock l)).waiters.signalled.card by omega)
    refine ⟨u, sound.concerned _ u (.inr signalled), passes u (sound.concerned _ u (.inr signalled)) fun asleep => ?_⟩
    rw [← List.mem_toFinset, ← semaphore.sleeping] at asleep
    exact Finset.disjoint_left.1 (s.semaphore (.lock l)).waiters.disjoint asleep signalled
  · exact ⟨t, comes, passes t comes awake⟩

/-- **A thread that is held up in `Wait`** is in the queue, or another thread is about to free it. -/
theorem held_up (h : s.Permits) (waits : s.Waits) (todo : s.todo t = .P (.waiter n) :: rest) :
    ∃ c phase, s.waits n = some ⟨t, c, phase⟩ ∧
      (n ∈ s.waitQueue c ∨ (∃ u, s.At u (.V (.waiter n))) ∨ (s.step (.run t)).isSome) := by
  obtain ⟨⟨thread, cond, phase⟩, call, rfl⟩ := waits.waiting n t (At.mem ⟨rest, todo⟩)
  have kept := h.kept n _ call
  refine ⟨cond, phase, call, ?_⟩
  cases phase with
  | made =>
    obtain ⟨l, next⟩ := kept
    cases At.inj next ⟨rest, todo⟩
  | queued => exact .inl kept
  | removed u => exact .inr (.inl ⟨u, kept⟩)
  | freed =>
    obtain ⟨s', done, -⟩ := passes sound waits ⟨_, call, rfl⟩ todo
    exact .inr (.inr (by rw [done]; rfl))

end State

end

end Nachos.Mp3.Synch
