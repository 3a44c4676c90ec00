import Nachos.Base.Service
import Nachos.Mp1.Console

/-!
# Services behind a lock

`Lock` of `threads/synch.cc` as `SynchDisk`, `SynchConsoleInput` and `PostOfficeOutput` use it: a call begins with
`Acquire`, goes through the service and ends with `Release`. Any number of threads call; a thread can
be preempted between the steps, and the device moves in between. What the threads do together is a
run of the service alone.
-/

namespace Nachos.Devices
open Transition
open Nachos.Mp1 (Semaphore)

/-! ## Waiting for the device -/

section semaphore

variable {τ : Type} {v v' : Semaphore τ} {t : τ} {passed : Bool}

/-- A step of `P`: the thread sleeps, falls asleep, or has passed. -/
def P [DecidableEq τ] (v : Semaphore τ) (t : τ) : Option (Semaphore τ × Bool) :=
  if t ∈ v.queue then none
  else if v.value = 0 then some (v.sleep t, false)
  else some (v.take, true)

theorem P_value [DecidableEq τ] (done : P v t = some (v', passed)) :
    (passed = false ∧ v.value = 0 ∧ v'.value = v.value) ∨ (passed = true ∧ v.value ≠ 0 ∧ v'.value = v.value - 1) := by
  simp only [P, Option.ite_none_left_eq_some] at done
  obtain ⟨-, done⟩ := done
  split at done
  · rename_i zero
    obtain ⟨rfl, rfl⟩ := Prod.mk.inj (Option.some.inj done)
    exact .inl ⟨rfl, zero, rfl⟩
  · rename_i up
    obtain ⟨rfl, rfl⟩ := Prod.mk.inj (Option.some.inj done)
    exact .inr ⟨rfl, up, rfl⟩

/-- Only thread `t` can be waiting. -/
def Down (v : Semaphore τ) (t : τ) : Prop := v.value = 0 ∧ (v.queue = [] ∨ v.queue = [t])

theorem Down.V (h : Down v t) : v.V = ⟨1, []⟩ := by
  obtain ⟨zero, empty | self⟩ := h
  · rw [Semaphore.V, zero, empty]
    rfl
  · rw [Semaphore.V, zero, self]
    rfl

/-- While the value is 0 the thread is held up, then it takes the one permit. -/
theorem P_cases [DecidableEq τ] (done : P v t = some (v', passed)) (one : Down v t ∨ v = ⟨1, []⟩) :
    (passed = false ∧ Down v t ∧ Down v' t) ∨ (passed = true ∧ v = ⟨1, []⟩ ∧ v' = ⟨0, []⟩) := by
  simp only [P, Option.ite_none_left_eq_some] at done
  obtain ⟨awake, done⟩ := done
  obtain down | rfl := one
  · rw [if_pos down.1, Option.some.injEq, Prod.mk.injEq] at done
    obtain ⟨rfl, rfl⟩ := done
    refine .inl ⟨rfl, down, down.1, ?_⟩
    obtain empty | self := down.2
    · rw [Semaphore.sleep_queue, empty]
      exact .inr rfl
    · rw [self] at awake
      exact absurd List.mem_cons_self awake
  · rw [if_neg Int.one_ne_zero, Option.some.injEq, Prod.mk.injEq] at done
    obtain ⟨rfl, rfl⟩ := done
    exact .inr ⟨rfl, rfl, rfl⟩

end semaphore

/-! ## The lock -/

/-- Where a caller stands. -/
inductive Place (κ π ρ : Type) where
  | outside
  /-- In `semaphore->P()` of the lock. -/
  | acquire (c : κ)
  /-- Before `lockHolder = kernel->currentThread`. -/
  | acquired (c : κ)
  | inside (c : κ) (p : π)
  /-- Before the test of `lockHolder` in `Release`. -/
  | release (c : κ) (answer : ρ)
  /-- Before `semaphore->V()` of the lock. -/
  | signal (c : κ) (answer : ρ)

structure Guarded (τ κ π ρ δ : Type) where
  state : δ
  lock : Semaphore τ
  lockHolder : Option τ
  place : τ → Place κ π ρ
  served : List (κ × ρ)

inductive GuardedEvent (τ κ ε : Type) where
  | call (t : τ) (c : κ)
  | run (t : τ)
  | environment (e : ε)

variable {τ κ π ρ δ ε : Type} [DecidableEq τ]

namespace Guarded

def setPlace (s : Guarded τ κ π ρ δ) (t : τ) (p : Place κ π ρ) : Guarded τ κ π ρ δ := { s with place := Function.update s.place t p }

/-- The service has moved its caller, or is done with it. -/
def moved (s : Guarded τ κ π ρ δ) (t : τ) (c : κ) : δ × (π ⊕ ρ) → Guarded τ κ π ρ δ
  | (state, .inl p) => { s.setPlace t (.inside c p) with state }
  | (state, .inr answer) => { s.setPlace t (.release c answer) with state, served := s.served ++ [(c, answer)] }

/-- The next step of a thread: none if it sleeps, or if an `ASSERT` fails. -/
def run (S : Service τ κ π ρ δ ε) (s : Guarded τ κ π ρ δ) (t : τ) : Option (Guarded τ κ π ρ δ) :=
  match s.place t with
  | .outside => none
  | .acquire c => (P s.lock t).map fun r => { s.setPlace t (if r.2 then .acquired c else .acquire c) with lock := r.1 }
  | .acquired c => some { s.setPlace t (.inside c (S.first c)) with lockHolder := some t }
  | .inside c p => (S.run s.state t c p).map (s.moved t c)
  | .release c answer =>
    if s.lockHolder = some t then some { s.setPlace t (.signal c answer) with lockHolder := none } else none
  | .signal _ _ => some { s.setPlace t .outside with lock := s.lock.V }

def step (S : Service τ κ π ρ δ ε) (s : Guarded τ κ π ρ δ) : GuardedEvent τ κ ε → Option (Guarded τ κ π ρ δ)
  | .call t c =>
    match s.place t with
    | .outside => some (s.setPlace t (.acquire c))
    | _ => none
  | .run t => s.run S t
  | .environment e => (S.environment s.state e).map fun state => { s with state }

end Guarded

/-- The interleavings of the threads `τ`. -/
def guarded (S : Service τ κ π ρ δ ε) : System (Guarded τ κ π ρ δ) (GuardedEvent τ κ ε) where
  init s := S.start s.state ∧ s.lock = ⟨1, []⟩ ∧ s.lockHolder = none ∧ (∀ t, s.place t = .outside) ∧ s.served = []
  step s e s' := s.step S e = some s'

/-- The thread has the lock. -/
def Place.Has : Place κ π ρ → Prop
  | .outside | .acquire _ => False
  | _ => True

/-- The call that a thread is in. -/
def Place.call : Place κ π ρ → Option κ
  | .outside => none
  | .acquire c | .acquired c | .inside c _ | .release c _ | .signal c _ => some c

/-- What the service alone knows of a thread that has the lock. -/
def Place.caller (t : τ) : Place κ π ρ → Option (τ × κ × π)
  | .inside c p => some (t, c, p)
  | _ => none

/-- The places between the write of `lockHolder` in `Acquire` and that in `Release`. -/
def Place.Holding : Place κ π ρ → Prop
  | .inside _ _ | .release _ _ => True
  | _ => False

namespace Guarded

variable {S : Service τ κ π ρ δ ε} {s s' : Guarded τ κ π ρ δ} {u : Serving τ κ π ρ δ} {t v : τ} {p : Place κ π ρ}

@[simp] theorem setPlace_self : (s.setPlace t p).place t = p := Function.update_self ..

theorem setPlace_ne (ne : v ≠ t) : (s.setPlace t p).place v = s.place v := Function.update_of_ne ne ..

/-- No thread has the lock. -/
structure Free (s : Guarded τ κ π ρ δ) (u : Serving τ κ π ρ δ) : Prop where
  nobody : ∀ v, ¬ (s.place v).Has
  value : s.lock.value = 1
  inside : u.inside = none

/-- Thread `t` has the lock. -/
structure Held (t : τ) (s : Guarded τ κ π ρ δ) (u : Serving τ κ π ρ δ) : Prop where
  others : ∀ v, v ≠ t → ¬ (s.place v).Has
  has : (s.place t).Has
  value : s.lock.value = 0
  inside : u.inside = (s.place t).caller t
  holder : (s.place t).Holding → s.lockHolder = some t

/-- The threads and the service alone. -/
structure Serves (s : Guarded τ κ π ρ δ) (u : Serving τ κ π ρ δ) : Prop where
  state : s.state = u.state
  served : s.served = u.served
  door : s.Free u ∨ ∃ t, s.Held t u

/-- A thread moves that does not have the lock. -/
theorem Serves.setPlace (h : s.Serves u) (before : ¬ (s.place v).Has) (after : ¬ p.Has) : (s.setPlace v p).Serves u := by
  have quiet (w : τ) (out : ¬ (s.place w).Has) : ¬ ((s.setPlace v p).place w).Has := by
    obtain rfl | ne := eq_or_ne w v
    · rwa [setPlace_self]
    · rwa [setPlace_ne ne]
  refine ⟨h.state, h.served, ?_⟩
  obtain free | ⟨t, held⟩ := h.door
  · exact .inl ⟨fun w => quiet w (free.nobody w), free.value, free.inside⟩
  · have ne : t ≠ v := by
      rintro rfl
      exact before held.has
    have same : (s.setPlace v p).place t = s.place t := setPlace_ne ne
    refine .inr ⟨t, fun w other => quiet w (held.others w other), ?_, held.value, ?_, ?_⟩
    · rw [same]
      exact held.has
    · rw [same]
      exact held.inside
    · rw [same]
      exact held.holder

/-- The thread that has the lock moves on. -/
theorem Held.move (others : ∀ v, v ≠ t → ¬ (s.place v).Has) (place : ∀ v, s'.place v = (s.setPlace t p).place v) (has : p.Has)
    (value : s'.lock.value = 0) (inside : u.inside = p.caller t) (holder : p.Holding → s'.lockHolder = some t) : s'.Held t u := by
  have here : s'.place t = p := by rw [place, setPlace_self]
  refine ⟨fun v ne => ?_, ?_, value, ?_, ?_⟩
  · rw [place, setPlace_ne ne]
    exact others v ne
  · rwa [here]
  · rwa [here]
  · rwa [here]

/-- The owner of the lock is the only thread that has it. -/
theorem Serves.held (h : s.Serves u) (has : (s.place t).Has) : s.Held t u := by
  obtain free | ⟨v, held⟩ := h.door
  · exact absurd has (free.nobody t)
  · have same : t = v := by
      by_contra ne
      exact held.others t ne has
    rwa [same]

/-- A step of a thread is one of the service, or none. -/
theorem Serves.run (h : s.Serves u) (next : s.run S t = some s') :
    s'.Serves u ∨ ∃ b u', (∀ t c, b = .enter t c → (s.place t).call = some c) ∧ S.step u b = some u' ∧ s'.Serves u' := by
  rw [Guarded.run] at next
  cases place : s.place t with
  | outside => simp [place] at next
  | acquire c =>
    simp only [place, Option.map_eq_some_iff] at next
    obtain ⟨⟨lock, passed⟩, done, rfl⟩ := next
    have out : ¬ (s.place t).Has := by
      rw [place]
      exact id
    obtain ⟨rfl, zero, same⟩ | ⟨rfl, up, taken⟩ := P_value done
    · obtain ⟨state, served, door⟩ := h.setPlace (p := .acquire c) out id
      refine .inl ⟨state, served, ?_⟩
      obtain free | ⟨v, held⟩ := door
      · exact .inl { free with value := same.trans free.value }
      · exact .inr ⟨v, { held with value := same.trans held.value }⟩
    · obtain free | ⟨v, held⟩ := h.door
      · refine .inl ⟨h.state, h.served, .inr ⟨t, .move (fun w _ => free.nobody w) (fun _ => rfl) trivial ?_ free.inside False.elim⟩⟩
        change lock.value = 0
        rw [taken, free.value, Int.sub_self]
      · exact absurd held.value up
  | acquired c =>
    simp only [place, Option.some.injEq] at next
    subst next
    have held := h.held (t := t) (by rw [place]; trivial)
    have free : u.inside = none := by rw [held.inside, place]; rfl
    refine .inr ⟨.enter t c, ⟨u.state, some (t, c, S.first c), u.served⟩, ?_, ?_, h.state, h.served, .inr ⟨t, ?_⟩⟩
    · intro v c' eq
      obtain ⟨rfl, rfl⟩ := ServiceEvent.enter.inj eq
      rw [place]
      rfl
    · simp only [Service.step, free]
    · exact .move held.others (fun _ => rfl) trivial held.value rfl fun _ => rfl
  | inside c p =>
    simp only [place, Option.map_eq_some_iff] at next
    obtain ⟨⟨state, answer⟩, run, eq⟩ := next
    have held := h.held (t := t) (by rw [place]; trivial)
    have inside : u.inside = some (t, c, p) := by rw [held.inside, place]; rfl
    have holder := held.holder (by rw [place]; trivial)
    have served : S.step u .run = some (Service.moved u t c (state, answer)) := by
      simp only [Service.step, inside]
      rw [← h.state, run]
      rfl
    subst eq
    refine .inr ⟨.run, _, (fun _ _ eq => by cases eq), served, ?_⟩
    cases answer with
    | inl q => exact ⟨rfl, h.served, .inr ⟨t, .move held.others (fun _ => rfl) trivial held.value rfl fun _ => holder⟩⟩
    | inr answer =>
      refine ⟨rfl, ?_, .inr ⟨t, .move held.others (fun _ => rfl) trivial held.value rfl fun _ => holder⟩⟩
      exact congrArg (· ++ [(c, answer)]) h.served
  | release c answer =>
    simp only [place, Option.ite_none_right_eq_some, Option.some.injEq] at next
    obtain ⟨-, rfl⟩ := next
    have held := h.held (t := t) (by rw [place]; trivial)
    have free : u.inside = none := by rw [held.inside, place]; rfl
    exact .inl ⟨h.state, h.served, .inr ⟨t, .move held.others (fun _ => rfl) trivial held.value free False.elim⟩⟩
  | signal c answer =>
    simp only [place, Option.some.injEq] at next
    subst next
    have held := h.held (t := t) (by rw [place]; trivial)
    have free : u.inside = none := by rw [held.inside, place]; rfl
    refine .inl ⟨h.state, h.served, .inl ⟨fun v => ?_, ?_, free⟩⟩
    · obtain rfl | ne := eq_or_ne v t
      · change ¬ ((s.setPlace v .outside).place v).Has
        rw [setPlace_self]
        exact id
      · change ¬ ((s.setPlace t .outside).place v).Has
        rw [setPlace_ne ne]
        exact held.others v ne
    · rw [Semaphore.V_value, held.value, Int.zero_add]

/-- A step of the threads is one of the service, or none. -/
theorem Serves.step (h : s.Serves u) {e : GuardedEvent τ κ ε} (next : s.step S e = some s') :
    s'.Serves u ∨ ∃ b u', (∀ t c, b = .enter t c → (s.place t).call = some c) ∧ S.step u b = some u' ∧ s'.Serves u' := by
  cases e with
  | call t c =>
    rw [Guarded.step] at next
    split at next
    · rename_i out
      obtain rfl := Option.some.inj next
      refine .inl (h.setPlace ?_ id)
      rw [out]
      exact id
    · cases next
  | run t => exact h.run next
  | environment e =>
    simp only [Guarded.step, Option.map_eq_some_iff] at next
    obtain ⟨state, run, rfl⟩ := next
    refine .inr ⟨.environment e, { u with state }, (fun _ _ eq => by cases eq), ?_, rfl, h.served, ?_⟩
    · simp only [Service.step]
      rw [← h.state, run]
      rfl
    · obtain free | ⟨v, held⟩ := h.door
      · exact .inl { free with }
      · exact .inr ⟨v, { held with }⟩

/-- A thread is in the call that it has made. -/
theorem call_of_step {e : GuardedEvent τ κ ε} (next : s.step S e = some s') {c : κ} (call : (s'.place v).call = some c) :
    (s.place v).call = some c ∨ e = .call v c := by
  have moved (t : τ) (p : Place κ π ρ) (at_t : s'.place = (s.setPlace t p).place) (same : p.call = (s.place t).call ∨ p = .outside) :
      (s.place v).call = some c := by
    rw [at_t] at call
    obtain rfl | ne := eq_or_ne v t
    · rw [setPlace_self] at call
      obtain same | rfl := same
      · rw [← same]
        exact call
      · cases call
    · rwa [setPlace_ne ne] at call
  cases e with
  | call t c' =>
    rw [Guarded.step] at next
    split at next
    · obtain rfl := Option.some.inj next
      obtain rfl | ne := eq_or_ne v t
      · rw [setPlace_self] at call
        cases call
        exact .inr rfl
      · rw [setPlace_ne ne] at call
        exact .inl call
    · cases next
  | run t =>
    rw [Guarded.step, Guarded.run] at next
    cases place : s.place t with
    | outside => simp [place] at next
    | acquire c' =>
      simp only [place, Option.map_eq_some_iff] at next
      obtain ⟨⟨lock, passed⟩, -, rfl⟩ := next
      refine .inl (moved t _ rfl (.inl ?_))
      rw [place]
      cases passed <;> rfl
    | acquired c' =>
      simp only [place, Option.some.injEq] at next
      subst next
      exact .inl (moved t _ rfl (.inl (by rw [place]; rfl)))
    | inside c' p =>
      simp only [place, Option.map_eq_some_iff] at next
      obtain ⟨⟨state, answer⟩, -, rfl⟩ := next
      cases answer <;> exact .inl (moved t _ rfl (.inl (by rw [place]; rfl)))
    | release c' answer =>
      simp only [place, Option.ite_none_right_eq_some, Option.some.injEq] at next
      obtain ⟨-, rfl⟩ := next
      exact .inl (moved t _ rfl (.inl (by rw [place]; rfl)))
    | signal c' answer =>
      simp only [place, Option.some.injEq] at next
      subst next
      exact .inl (moved t .outside rfl (.inr rfl))
  | environment e =>
    simp only [Guarded.step, Option.map_eq_some_iff] at next
    obtain ⟨state, -, rfl⟩ := next
    exact .inl call

/-- The calls that threads make are of a kind. -/
def Calls (legal : κ → Prop) (_ : Guarded τ κ π ρ δ) (e : GuardedEvent τ κ ε) : Prop := ∀ t c, e = .call t c → legal c

/-- **Behind the lock a service is alone**, whatever the interleaving of its callers; it gets the calls that they make. -/
theorem serves_of_calls {legal : κ → Prop} (reach : Reach (guarded S) (Calls legal) s) :
    (∀ t c, (s.place t).call = some c → legal c) ∧
      ∃ u, Reach S.alone (Service.Enters legal) u ∧ s.Serves u := by
  have rule : ∃ u, Reach S.alone (Service.Enters legal) u ∧
      ((∀ t c, (s.place t).call = some c → legal c) ∧ s.Serves u) := by
    refine reach.simulate (fun s u => (∀ t c, (s.place t).call = some c → legal c) ∧ s.Serves u) ?_ ?_
    · rintro s ⟨start, lock, -, place, served⟩
      refine ⟨⟨s.state, none, []⟩, ⟨start, rfl, rfl⟩, fun t c call => ?_, rfl, served, .inl ⟨fun v => ?_, ?_, rfl⟩⟩
      · rw [place] at call
        cases call
      · rw [place]
        exact id
      · rw [lock]
    · rintro s e s' u ⟨calls, rel⟩ admitted next
      have calls' : ∀ t c, (s'.place t).call = some c → legal c := fun t c call =>
        (call_of_step next call).elim (calls t c) (admitted t c)
      obtain still | ⟨b, u', enters, move, rel'⟩ := rel.step next
      · exact .inl ⟨calls', still⟩
      · exact .inr ⟨b, u', fun t c eq => calls t c (enters t c eq), move, calls', rel'⟩
  obtain ⟨u, alone, calls, serves⟩ := rule
  exact ⟨calls, u, alone, serves⟩

/-- Whatever the threads call. -/
theorem serves_of_reach (reach : Reach (guarded S) (fun _ _ => True) s) :
    ∃ u, Reach S.alone (Service.Enters fun _ => True) u ∧ s.Serves u := by
  have calls : Reach (guarded S) (Calls fun _ => True) s := reach.mono fun _ _ _ _ _ _ _ => trivial
  exact (serves_of_calls calls).2

/-- The `ASSERT` of `Lock::Release` holds. -/
theorem Serves.holder (h : s.Serves u) {c : κ} {answer : ρ} (at_release : s.place t = .release c answer) : s.lockHolder = some t :=
  (h.held (by rw [at_release]; trivial)).holder (by rw [at_release]; trivial)

/-- The thread inside. -/
theorem Serves.inside (h : s.Serves u) {c : κ} {p : π} (at_p : s.place t = .inside c p) : u.inside = some (t, c, p) := by
  rw [(h.held (by rw [at_p]; trivial)).inside, at_p]
  rfl

omit [DecidableEq τ] in
theorem Serves.place (h : s.Serves u) {c : κ} {p : π} (inside : u.inside = some (t, c, p)) : s.place t = .inside c p := by
  obtain free | ⟨v, held⟩ := h.door
  · rw [free.inside] at inside
    cases inside
  · have caller := held.inside
    rw [inside] at caller
    cases place : s.place v with
    | inside c' p' =>
      rw [place] at caller
      cases caller
      exact place
    | outside | acquire _ | acquired _ | release _ _ | signal _ _ =>
      rw [place] at caller
      cases caller

end Guarded

end Nachos.Devices
