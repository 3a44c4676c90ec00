import Nachos.Pthreads.Pipeline

/-!
# The controller's vector of consumers

Which consumers the vector holds, and which threads can have left their loops: those that were
cancelled, and a consumer is cancelled once (`Manned`).
-/

namespace Nachos.Pthreads.Pipeline

variable {s s' : Pipeline} {i : ℕ} {e : Event}

/-- The consumers of the vector are distinct and run, up to the one that is being cancelled. -/
structure Manned (s : Pipeline) : Prop where
  nodup : s.controller.consumers.Nodup
  created : ∀ i ∈ s.controller.consumers, i < s.consumers.length
  target : ∀ i, s.controller.cancelling = some i → s.controller.consumers.getLast? = some i
  flagged : ∀ (i : ℕ) (c : Consumer), s.consumers[i]? = some c → c.isCancel = true → i ∈ s.controller.consumers →
    s.controller.cancelling = some i
  left : ∀ (i : ℕ) (c : Consumer), s.consumers[i]? = some c → c.phase = .left → c.isCancel = true

/-- What one consumer does to itself. -/
structure Moved (s s' : Pipeline) (i : ℕ) (c c' : Consumer) : Prop where
  found : s.consumers[i]? = some c
  here : c.phase ≠ .left
  flag : c'.isCancel = c.isCancel
  leaves : c'.phase = .left → c.isCancel = true
  consumers : s'.consumers = s.consumers.set i c'

theorem step_consumer (t : s.stepConsumer i = some s') : s'.controller = s.controller ∧ ∃ c c', Moved s s' i c c' := by
  obtain ⟨c, found, t⟩ := Option.bind_eq_some_iff.1 t
  cases phase : c.phase with
  | loop =>
    simp only [phase] at t
    obtain rfl := Option.some.inj t
    refine ⟨rfl, c, { c with phase := if c.isCancel then .left else .disable }, found, by simp [phase], rfl, fun left => ?_, rfl⟩
    by_contra stays
    simp [stays] at left
  | disable =>
    simp only [phase] at t
    obtain rfl := Option.some.inj t
    exact ⟨rfl, c, { c with cancelEnabled := false, phase := .body .getSize }, found, by simp [phase], rfl, nofun, rfl⟩
  | body w =>
    by_cases atEnd : w = .done
    · subst atEnd
      simp only [phase] at t
      obtain rfl := Option.some.inj t
      exact ⟨rfl, c, { c with cancelEnabled := true, phase := .loop }, found, by simp [phase], rfl, nofun, rfl⟩
    · simp only [phase] at t
      obtain ⟨r, -, rfl⟩ := Option.map_eq_some_iff.1 t
      exact ⟨rfl, c, { c with phase := .body r.2.2 }, found, by simp [phase], rfl, nofun, rfl⟩
  | left =>
    simp only [phase, reduceCtorEq] at t
  | cancelled =>
    simp only [phase, reduceCtorEq] at t

theorem step_cancellation (t : s.cancellation i = some s') : s'.controller = s.controller ∧ ∃ c c', Moved s s' i c c' := by
  obtain ⟨c, found, t⟩ := Option.bind_eq_some_iff.1 t
  obtain ⟨⟨-, -, waits⟩, t⟩ := Option.ite_none_right_eq_some.1 t
  obtain rfl := Option.some.inj t
  refine ⟨rfl, c, { c with phase := .cancelled }, found, fun left => ?_, rfl, nofun, rfl⟩
  rw [left] at waits
  exact waits

/-- What a step does to the consumers and to the vector. -/
inductive Scaled (s : Pipeline) : Event → Pipeline → Prop where
  | create (idle : s.controller.cancelling = none) : Scaled s .create s.create
  | cancel {i : ℕ} {c : Consumer} (idle : s.controller.cancelling = none) (last : s.controller.consumers.getLast? = some i)
      (found : s.consumers[i]? = some c) : Scaled s .cancel
        { s.setConsumer i { c with isCancel := true } with controller := { s.controller with cancelling := some i } }
  | pthreadCancel {i : ℕ} {c : Consumer} (target : s.controller.cancelling = some i) (found : s.consumers[i]? = some c) :
      Scaled s .pthreadCancel
        { s.setConsumer i { c with cancelRequested := true } with controller := ⟨s.controller.consumers.dropLast, none, none⟩ }
  | moved {e : Event} {s' : Pipeline} {i : ℕ} {c c' : Consumer} (other : e ≠ .create) (same : s'.controller = s.controller)
      (m : Moved s s' i c c') : Scaled s e s'
  | others {e : Event} {s' : Pipeline} (other : e ≠ .create) (vector : s'.controller.consumers = s.controller.consumers)
      (cancelling : s'.controller.cancelling = s.controller.cancelling) (consumers : s'.consumers = s.consumers) : Scaled s e s'

theorem scaled (t : s.step e = some s') : Scaled s e s' := by
  cases e with
  | reader =>
    simp only [step, stepReader] at t
    split at t
    · split at t
      · obtain rfl := Option.some.inj t
        exact .others nofun rfl rfl rfl
      · obtain ⟨item, -, rfl⟩ := Option.map_eq_some_iff.1 t
        exact .others nofun rfl rfl rfl
    · obtain ⟨-, t⟩ := Option.ite_none_left_eq_some.1 t
      obtain rfl := Option.some.inj t
      exact .others nofun rfl rfl rfl
    · cases t
  | producer i =>
    obtain ⟨w, -, t⟩ := Option.bind_eq_some_iff.1 t
    split at t
    · obtain rfl := Option.some.inj t
      exact .others nofun rfl rfl rfl
    · obtain ⟨r, -, rfl⟩ := Option.map_eq_some_iff.1 t
      exact .others nofun rfl rfl rfl
  | consumer i =>
    obtain ⟨same, c, c', m⟩ := step_consumer t
    exact .moved nofun same m
  | writer =>
    simp only [step, stepWriter] at t
    split at t
    · obtain rfl := Option.some.inj t
      exact .others nofun rfl rfl rfl
    · obtain ⟨-, t⟩ := Option.ite_none_left_eq_some.1 t
      obtain rfl := Option.some.inj t
      exact .others nofun rfl rfl rfl
    · obtain rfl := Option.some.inj t
      exact .others nofun rfl rfl rfl
    · cases t
  | cancellation i =>
    obtain ⟨same, c, c', m⟩ := step_cancellation t
    exact .moved nofun same m
  | measure =>
    obtain rfl := Option.some.inj t
    exact .others nofun rfl rfl rfl
  | create =>
    obtain ⟨idle, t⟩ := Option.ite_none_right_eq_some.1 t
    obtain rfl := Option.some.inj t
    exact .create idle
  | cancel =>
    obtain ⟨idle, t⟩ := Option.ite_none_right_eq_some.1 t
    obtain ⟨i, last, t⟩ := Option.bind_eq_some_iff.1 t
    obtain ⟨c, found, rfl⟩ := Option.map_eq_some_iff.1 t
    exact .cancel idle last found
  | pthreadCancel =>
    obtain ⟨i, target, t⟩ := Option.bind_eq_some_iff.1 t
    obtain ⟨c, found, rfl⟩ := Option.map_eq_some_iff.1 t
    exact .pthreadCancel target found
  | rest =>
    obtain rfl := Option.some.inj t
    exact .others nofun rfl rfl rfl

/-! ## One consumer changes -/

variable {l : List Consumer} {j : ℕ} {c c' d : Consumer}

/-- A consumer that has left its loop stays so if the one that changes does. -/
theorem left_set (found : l[i]? = some c) (keeps : c.phase = .left → c'.phase = .left) (found' : l[j]? = some d)
    (left : d.phase = .left) : ∃ d', (l.set i c')[j]? = some d' ∧ d'.phase = .left := by
  by_cases eq : i = j
  · subst eq
    rw [found, Option.some.injEq] at found'
    exact ⟨c', List.getElem?_set_self (List.getElem?_eq_some_iff.1 found).1, keeps (found' ▸ left)⟩
  · exact ⟨d, (List.getElem?_set_ne eq).trans found', left⟩

/-- Nobody brings a thread back that has left its loop. -/
theorem left_stays (t : s.step e = some s') (found : s.consumers[i]? = some c) (left : c.phase = .left) :
    ∃ c', s'.consumers[i]? = some c' ∧ c'.phase = .left := by
  cases scaled t with
  | create => exact ⟨c, (List.getElem?_append_left (List.getElem?_eq_some_iff.1 found).1).trans found, left⟩
  | cancel _ _ at' => exact left_set at' id found left
  | pthreadCancel _ at' => exact left_set at' id found left
  | moved _ _ m =>
    rw [m.consumers]
    exact left_set m.found (fun left => absurd left m.here) found left
  | others _ _ _ consumers => exact ⟨c, consumers ▸ found, left⟩

/-- Only `create` adds a consumer. -/
theorem length_step (t : s.step e = some s') (create : e ≠ .create) : s'.consumers.length = s.consumers.length := by
  cases scaled t with
  | create => exact absurd rfl create
  | cancel => exact List.length_set
  | pthreadCancel => exact List.length_set
  | moved _ _ m => rw [m.consumers, List.length_set]
  | others _ _ _ consumers => rw [consumers]

namespace Manned

theorem initial (n : ℕ) (input : List Item) (garbage : ℤ → Piece) : (Pipeline.initial n input garbage).Manned where
  nodup := .nil
  created _ mem := by cases mem
  target _ h := by cases h
  flagged _ _ found := by cases found
  left _ _ found := by cases found

/-- A consumer at work stays in the vector, and one that leaves was told to. -/
theorem moved (h : s.Manned) (same : s'.controller = s.controller) (m : Moved s s' i c c') : s'.Manned := by
  constructor
  · rw [same]
    exact h.nodup
  · rw [same, m.consumers, List.length_set]
    exact h.created
  · rw [same]
    exact h.target
  · intro j d found flag
    rw [same]
    rw [m.consumers] at found
    obtain ⟨rfl, rfl⟩ | ⟨-, found⟩ := found_set m.found found
    · exact h.flagged j c m.found (m.flag ▸ flag)
    · exact h.flagged j d found flag
  · intro j d found phase
    rw [m.consumers] at found
    obtain ⟨rfl, rfl⟩ | ⟨-, found⟩ := found_set m.found found
    · exact m.flag.trans (m.leaves phase)
    · exact h.left j d found phase

theorem create (h : s.Manned) (idle : s.controller.cancelling = none) : s.create.Manned := by
  constructor
  · rw [create_controller_consumers, List.nodup_append]
    refine ⟨h.nodup, List.nodup_singleton _, fun i mem j last => ?_⟩
    have older := h.created i mem
    rw [List.mem_singleton.1 last]
    omega
  · intro i mem
    rw [create_consumers, List.length_append, List.length_singleton]
    rw [create_controller_consumers, List.mem_append, List.mem_singleton] at mem
    obtain mem | rfl := mem
    · exact Nat.lt_succ_of_lt (h.created i mem)
    · exact Nat.lt_succ_self _
  · intro i target
    rw [create_controller_cancelling, idle] at target
    cases target
  · intro i c found flag mem
    rw [create_consumers, List.getElem?_append] at found
    rw [create_controller_consumers, List.mem_append, List.mem_singleton] at mem
    split at found
    · rename_i inside
      obtain mem | rfl := mem
      · exact h.flagged i c found flag mem
      · exact absurd inside (lt_irrefl _)
    · rw [List.getElem?_singleton, Option.ite_none_right_eq_some, Option.some.injEq] at found
      rw [← found.2] at flag
      cases flag
  · intro i c found phase
    rw [create_consumers, List.getElem?_append] at found
    split at found
    · exact h.left i c found phase
    · rw [List.getElem?_singleton, Option.ite_none_right_eq_some, Option.some.injEq] at found
      rw [← found.2] at phase
      cases phase

/-- Only the flags of a consumer change. -/
theorem flag (h : s.Manned) (found : s.consumers[i]? = some c) (phase : c'.phase = c.phase)
    (keeps : c.isCancel = true → c'.isCancel = true) :
    ∀ (j : ℕ) (d : Consumer), (s.consumers.set i c')[j]? = some d → d.phase = .left → d.isCancel = true := by
  intro j d found' left
  obtain ⟨rfl, rfl⟩ | ⟨-, found'⟩ := found_set found found'
  · exact keeps (h.left j c found (phase ▸ left))
  · exact h.left j d found' left

theorem cancel (h : s.Manned) (idle : s.controller.cancelling = none) (last : s.controller.consumers.getLast? = some i)
    (found : s.consumers[i]? = some c) :
    Manned { s.setConsumer i { c with isCancel := true } with controller := { s.controller with cancelling := some i } } := by
  refine ⟨h.nodup, ?_, ?_, ?_, h.flag found rfl fun _ => rfl⟩
  · simp only [setConsumer_consumers, List.length_set]
    exact h.created
  · intro j target
    obtain rfl := Option.some.inj target
    exact last
  · intro j d found' flag mem
    obtain ⟨rfl, -⟩ | ⟨-, found'⟩ := found_set found found'
    · rfl
    · have busy := h.flagged j d found' flag mem
      rw [idle] at busy
      cases busy

theorem pthreadCancel (h : s.Manned) (target : s.controller.cancelling = some i) (found : s.consumers[i]? = some c) :
    Manned { s.setConsumer i { c with cancelRequested := true } with
      controller := ⟨s.controller.consumers.dropLast, none, none⟩ } := by
  have gone : i ∉ s.controller.consumers.dropLast := by
    intro mem
    have split := List.dropLast_append_getLast? i (h.target i target)
    have nodup := h.nodup
    rw [← split, List.nodup_append] at nodup
    exact nodup.2.2 i mem i List.mem_cons_self rfl
  refine ⟨h.nodup.sublist (List.dropLast_sublist _), ?_, nofun, ?_, h.flag found rfl id⟩
  · intro j mem
    simp only [setConsumer_consumers, List.length_set]
    exact h.created j (List.dropLast_subset _ mem)
  · intro j d found' flag mem
    exfalso
    obtain ⟨rfl, -⟩ | ⟨other, found'⟩ := found_set found found'
    · exact gone mem
    · -- the consumer that was told to stop is the one that is cancelled
      have busy := h.flagged j d found' flag (List.dropLast_subset _ mem)
      rw [target, Option.some.injEq] at busy
      exact other busy.symm

theorem step (h : s.Manned) (t : s.step e = some s') : s'.Manned := by
  cases scaled t with
  | create idle => exact h.create idle
  | cancel idle last found => exact h.cancel idle last found
  | pthreadCancel target found => exact h.pthreadCancel target found
  | moved _ same m => exact h.moved same m
  | others _ vector cancelling consumers =>
    constructor
    · exact vector ▸ h.nodup
    · exact vector ▸ consumers ▸ h.created
    · exact vector ▸ cancelling ▸ h.target
    · exact vector ▸ cancelling ▸ consumers ▸ h.flagged
    · exact consumers ▸ h.left

end Manned

end Nachos.Pthreads.Pipeline
