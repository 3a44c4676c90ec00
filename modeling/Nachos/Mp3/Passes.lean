import Nachos.Mp3.Steps

/-!
# The loops of `UpdatePriority`

A visit ages one thread and leaves it where it is or makes it ready again. The loop over
`L2` can meet a thread twice: the main thread keeps its place when its priority passes 100,
and threads that precede it in the list but not in the order are inserted behind it at the
next pass. Every loop ends, every thread it found is aged once, and no thread changes but
in its priority, its waiting time and its queue.
-/

namespace Nachos.Mp3

/-- What becomes of a thread of the queue `ℓ`. In `L2` its waiting time starts anew. -/
structure Aged (ℓ : Level) (now : Nat) (th th' : Thread) : Prop where
  priority : th'.priority = if (now : Int) - th.waitStartTime < 1500 then th.priority else Thread.raised th.priority
  start : th'.waitStartTime = if (now : Int) - th.waitStartTime < 1500 ∧ ℓ ≠ .L2 then th.waitStartTime else now

theorem Aged.waited {ℓ : Level} {now : Nat} {a b : Thread} (h : Aged ℓ now a b) :
    (now : Int) - b.waitStartTime < 1500 := by
  rw [h.start]
  split <;> omega

theorem Aged.again {ℓ ℓ' : Level} {now : Nat} {a b c : Thread} (h : Aged ℓ now a b) (h' : Aged ℓ' now b c)
    (levels : ℓ' = .L2 → ℓ = .L2) : Aged ℓ now a c where
  priority := by rw [h'.priority, if_pos h.waited, h.priority]
  start := by
    rw [h'.start]
    by_cases l2 : ℓ' = .L2
    · rw [if_neg (by simp [l2]), if_neg (by simp [levels l2])]
    · rw [if_pos ⟨h.waited, l2⟩, h.start]

namespace Kernel

variable {k k' k₀ : Kernel} {place : ThreadPtr → Place} {t u : ThreadPtr} {ℓ : Level}

/-- A thread after a visit that leaves it in its place. -/
def agedThread (now : Nat) (th : Thread) : Thread := (th.aging now ((now : Int) - th.waitStartTime)).1

@[simps!] def aged (k : Kernel) (t : ThreadPtr) : Kernel := k.modify t (agedThread k.totalTicks)

/-- Whether a visit finds that a thread is to change queues. -/
def upgraded (k : Kernel) (t : ThreadPtr) : Bool :=
  ((k.threads t).aging k.totalTicks ((k.totalTicks : Int) - (k.threads t).waitStartTime)).2

theorem aging_eq : k.aging t = (k.aged t, k.upgraded t) := rfl

/-- When a visit leaves a thread in its place. -/
def Stays (k : Kernel) (t : ThreadPtr) : Level → Prop
  | .L1 => True
  | .L2 => k.upgraded t = true ∧ (k.threads t).ID = 0
  | .L3 => k.upgraded t = true → (k.threads t).ID = 0

/-- The two outcomes of a visit. -/
inductive Visit (k : Kernel) (ℓ : Level) (t : ThreadPtr) : Kernel → Prop where
  | stays : k.Stays t ℓ → Visit k ℓ t (k.aged t)
  | requeued : ¬ k.Stays t ℓ → Visit k ℓ t (((k.aged t).dequeued ℓ t).enqueued t)

theorem aged_ID : ((k.aged t).threads t).ID = (k.threads t).ID := by simp [agedThread]

theorem aged_priority : (agedThread k.totalTicks (k.threads t)).priority =
    if (k.totalTicks : Int) - (k.threads t).waitStartTime < 1500 then (k.threads t).priority
    else Thread.raised (k.threads t).priority := Thread.aging_priority

theorem upgraded_iff : k.upgraded t = true ↔
    ((k.threads t).priority < 100 ∧ 100 ≤ (agedThread k.totalTicks (k.threads t)).priority) ∨
      ((k.threads t).priority < 50 ∧ 50 ≤ (agedThread k.totalTicks (k.threads t)).priority) := Thread.aging_upgrade

/-- A thread that is to change queues has waited long enough. -/
theorem late_of_upgraded (h : k.upgraded t = true) : 1500 ≤ (k.totalTicks : Int) - (k.threads t).waitStartTime := by
  by_contra early
  rw [upgraded_iff, aged_priority, if_pos (not_le.1 early)] at h
  omega

/-- Aging a thread does not move the others. -/
theorem stays_aged (ne : u ≠ t) : (k.aged t).Stays u ℓ ↔ k.Stays u ℓ := by
  have same : (k.aged t).threads u = k.threads u := Function.update_of_ne ne ..
  have up : (k.aged t).upgraded u = k.upgraded u := by
    rw [upgraded, same]
    rfl
  cases ℓ with
  | L1 => rfl
  | L2 => rw [Stays, Stays, up, same]
  | L3 => rw [Stays, Stays, up, same]

theorem visit_stays (stays : k.Stays t ℓ) : visit ℓ t k = .ok (k.aged t) := by
  cases ℓ with
  | L1 => rfl
  | L2 =>
    obtain ⟨up, main⟩ := stays
    rw [visit, visitL2, aging_eq]
    simp only [up, if_true, aged_ID, main]
    rfl
  | L3 =>
    rw [visit, visitL3, aging_eq]
    cases up : k.upgraded t with
    | false => rfl
    | true =>
      simp only [if_true, aged_ID, stays up]
      rfl

theorem visit_leaves (moved : ¬ k.Stays t ℓ) : visit ℓ t k = (k.aged t).requeue ℓ t := by
  cases ℓ with
  | L1 => exact absurd trivial moved
  | L2 =>
    rw [visit, visitL2, aging_eq]
    cases up : k.upgraded t with
    | false => rfl
    | true =>
      have other : (k.threads t).ID > 0 := Nat.pos_of_ne_zero fun main => moved ⟨up, main⟩
      simp only [if_true, aged_ID, if_pos other]
  | L3 =>
    obtain ⟨up, other⟩ := Classical.not_imp.1 moved
    rw [visit, visitL3, aging_eq]
    simp only [up, if_true, aged_ID, if_pos (Nat.pos_of_ne_zero other)]

theorem visit_ok (h : Placed k place) (mem : t ∈ k.readyList ℓ) : ∃ k', visit ℓ t k = .ok k' ∧ Visit k ℓ t k' := by
  by_cases stays : k.Stays t ℓ
  · exact ⟨_, visit_stays stays, .stays stays⟩
  · have placed : Placed (k.aged t) place := h.congr (fun r => by cases r <;> rfl) rfl
    have out := (placed.dequeued (t := t) mem).not_mem (t := t) (by rw [Function.update_self]; trivial)
    refine ⟨_, ?_, .requeued stays⟩
    rw [visit_leaves stays, Kernel.requeue, remove_eq (by exact mem)]
    exact readyToRun_eq fun ℓ' => out (.ready ℓ')

/-! ## One visit -/

/-- The thread after a visit. -/
theorem Visit.self (h : Visit k ℓ t k') : Aged ℓ k.totalTicks (k.threads t) (k'.threads t) := by
  have start : (agedThread k.totalTicks (k.threads t)).waitStartTime =
      if (k.totalTicks : Int) - (k.threads t).waitStartTime < 1500 then (k.threads t).waitStartTime else k.totalTicks :=
    Thread.aging_waitStartTime
  have stays_of_early : (k.totalTicks : Int) - (k.threads t).waitStartTime < 1500 → k.upgraded t ≠ true :=
    fun early up => absurd (late_of_upgraded up) (by omega)
  cases h with
  | stays stays =>
    simp only [aged_threads, Function.update_self]
    refine ⟨aged_priority, ?_⟩
    rw [start]
    by_cases early : (k.totalTicks : Int) - (k.threads t).waitStartTime < 1500
    · have other : ℓ ≠ .L2 := by
        rintro rfl
        exact stays_of_early early stays.1
      rw [if_pos early, if_pos ⟨early, other⟩]
    · rw [if_neg early, if_neg fun both => early both.1]
  | requeued moved =>
    simp only [enqueued_threads, dequeued_threads, aged_threads, dequeued_totalTicks, aged_totalTicks, Function.update_self]
    refine ⟨aged_priority, (if_neg ?_).symm⟩
    rintro ⟨early, other⟩
    apply moved
    cases ℓ with
    | L1 => exact trivial
    | L2 => exact absurd rfl other
    | L3 => exact fun up => absurd up (stays_of_early early)

theorem Visit.others (h : Visit k ℓ t k') (ne : u ≠ t) : k'.threads u = k.threads u := by
  cases h with
  | stays _ => simp [ne]
  | requeued _ => simp [ne]

theorem Visit.mem_others (h : Visit k ℓ t k') (ne : u ≠ t) (ℓ' : Level) : u ∈ k'.readyList ℓ' ↔ u ∈ k.readyList ℓ' := by
  cases h with
  | stays _ => rfl
  | requeued _ =>
    have erased : u ∈ ((k.aged t).dequeued ℓ t).readyList ℓ' ↔ u ∈ k.readyList ℓ' := by
      rw [dequeued_readyList]
      rcases eq_or_ne ℓ' ℓ with rfl | hℓ
      · simp [List.mem_erase_of_ne ne]
      · simp [hℓ]
    rw [enqueued_readyList, ← erased]
    rcases eq_or_ne ℓ' (level (((k.aged t).dequeued ℓ t).threads t).priority) with rfl | hℓ
    · rw [Function.update_self, (perm_inserted _).mem_iff, List.mem_cons, or_iff_right ne]
      rfl
    · rw [Function.update_of_ne hℓ]
      rfl

theorem Visit.frame (h : Visit k ℓ t k') : k' = { k with threads := k'.threads, readyList := k'.readyList } := by
  cases h with
  | stays _ => rfl
  | requeued _ => rfl

theorem Visit.settled (h : Visit k ℓ t k') (settled : Settled k place) (mem : t ∈ k.readyList ℓ) :
    ∃ place', Settled k' place' := by
  have same : ∀ u, ((k.aged t).threads u).status = (k.threads u).status := by
    intro u
    rcases eq_or_ne u t with rfl | ne
    · simp [agedThread]
    · simp [ne]
  have aged : Settled (k.aged t) place := settled.congr (fun r => by cases r <;> rfl) rfl same rfl rfl rfl
  cases h with
  | stays _ => exact ⟨place, aged⟩
  | requeued _ =>
    have at_t : place t = .queued (.ready ℓ) := (settled.mem (.ready ℓ) t).1 mem
    exact ⟨_, aged.enqueued (aged.dequeued mem) (by simp [at_t]) rfl (fun _ _ => rfl) ⟨rfl, rfl, rfl⟩⟩

theorem Visit.ready (h : Visit k ℓ t k') (mem : t ∈ k.readyList ℓ) (u : ThreadPtr) : u ∈ k'.ready ↔ u ∈ k.ready := by
  rcases eq_or_ne u t with rfl | ne
  · refine iff_of_true ?_ (mem_ready.2 ⟨ℓ, mem⟩)
    rw [mem_ready]
    cases h with
    | stays _ => exact ⟨ℓ, mem⟩
    | requeued _ =>
      refine ⟨level (((k.aged u).dequeued ℓ u).threads u).priority, ?_⟩
      rw [enqueued_readyList, Function.update_self, (perm_inserted _).mem_iff]
      exact List.mem_cons_self
  · rw [mem_ready, mem_ready]
    exact exists_congr fun ℓ' => h.mem_others ne ℓ'

theorem Visit.ID (h : Visit k ℓ t k') (u : ThreadPtr) : (k'.threads u).ID = (k.threads u).ID := by
  rcases eq_or_ne u t with rfl | ne
  · cases h with
    | stays _ => exact aged_ID
    | requeued _ => simp [agedThread]
  · rw [h.others ne]

/-- Aging puts a thread in front unless its priority was above the highest. -/
theorem Visit.priorityLE (h : Visit k ℓ t k') (grows : (k.threads t).priority ≤ (k'.threads t).priority) (ne : u ≠ t)
    (le : k.priorityLE t u) : k'.priorityLE t u := by
  rw [priorityLE_iff, priorityKey, priorityKey, Prod.Lex.toLex_le_toLex] at le ⊢
  simp only [h.others ne, h.ID] at le ⊢
  omega

/-- A priority below the highest is not lower than before. -/
theorem Visit.grows (h : Visit k ℓ t k') (low : (k'.threads t).priority < 149) :
    (k.threads t).priority ≤ (k'.threads t).priority := by
  rw [h.self.priority] at low ⊢
  split
  · exact le_rfl
  · next late =>
    rw [if_neg late] at low
    unfold Thread.raised at low ⊢
    split at low <;> split <;> omega

/-- What the iterator still has before it after a visit. -/
theorem Visit.goesOn (h : Visit k ℓ t k') (settled : Settled k place) {p r : List ThreadPtr}
    (here : k.readyList ℓ = p ++ t :: r) :
    ∃ q r', k'.readyList ℓ = q ++ r' ∧ r'.head? = r.head? ∧ r ⊆ r' ∧
      Queue.effort k'.priorityLE r' < Queue.effort k.priorityLE (t :: r) := by
  have distinct := settled.nodup (.ready ℓ)
  rw [queue_ready, here, List.nodup_append] at distinct
  obtain ⟨-, tail, apart⟩ := distinct
  have ne : ∀ z ∈ r, z ≠ t := by
    rintro z hz rfl
    exact (List.nodup_cons.1 tail).1 hz
  have out : t ∉ p := fun hp => apart t hp t List.mem_cons_self rfl
  have same : ∀ a ∈ r, ∀ b ∈ r, (k.priorityLE a b ↔ k'.priorityLE a b) := by
    intro a ha b hb
    rw [priorityLE_iff, priorityLE_iff, h.others (ne a ha), h.others (ne b hb)]
  have less := Queue.effort_passed (x := t) same
  have better : (k'.threads t).priority < 100 → ∀ z ∈ r, k.priorityLE t z → k'.priorityLE t z :=
    fun low z hz le => h.priorityLE (h.grows (by omega)) (ne z hz) le
  have erased : (k.readyList ℓ).erase t = p ++ r := by
    rw [here, List.erase_append_right _ out, List.erase_cons_head]
  cases h with
  | stays _ => exact ⟨p ++ [t], r, by simpa using here, rfl, List.Subset.refl r, less⟩
  | requeued moved =>
    rcases eq_or_ne ℓ (level (((k.aged t).dequeued ℓ t).threads t).priority) with eq | hℓ
    · have prio : (((k.aged t).dequeued ℓ t).threads t).priority = (agedThread k.totalTicks (k.threads t)).priority := by
        simp
      rw [prio] at eq
      cases ℓ with
      | L1 => exact absurd trivial moved
      | L2 =>
        have low := (level_L2.1 eq.symm).2
        have list : (((k.aged t).dequeued .L2 t).enqueued t).readyList .L2 =
            (p ++ r).orderedInsert (((k.aged t).dequeued .L2 t).enqueued t).priorityLE t := by
          rw [enqueued_readyList, prio, ← eq, Function.update_self, ← erased]
          rfl
        rw [list]
        exact Queue.effort_inserted p same (better (by simpa using low))
      | L3 =>
        have low := level_L3.1 eq.symm
        refine absurd (fun up => ?_) moved
        have high := upgraded_iff.1 up
        omega
    · refine ⟨p, r, ?_, rfl, List.Subset.refl r, less⟩
      rw [enqueued_readyList, Function.update_of_ne hℓ, ← erased]
      simp

/-! ## One loop -/

/-- Between two visits of the loop over `ℓ` that started at `k₀`. -/
structure Passed (ℓ : Level) (k₀ k : Kernel) : Prop where
  settled : ∃ place, Settled k place
  frame : k = { k₀ with threads := k.threads, readyList := k.readyList }
  ready : ∀ u, u ∈ k.ready ↔ u ∈ k₀.ready
  outside : ∀ u, u ∉ k₀.readyList ℓ → k.threads u = k₀.threads u ∧ ∀ ℓ', u ∈ k.readyList ℓ' ↔ u ∈ k₀.readyList ℓ'
  inside : ∀ u, k.threads u = k₀.threads u ∨ Aged ℓ k₀.totalTicks (k₀.threads u) (k.threads u)
  stays : ℓ = .L1 → k.readyList = k₀.readyList

theorem Passed.refl (h : Settled k place) (ℓ : Level) : Passed ℓ k k where
  settled := ⟨place, h⟩
  frame := rfl
  ready _ := Iff.rfl
  outside _ _ := ⟨rfl, fun _ => Iff.rfl⟩
  inside _ := .inl rfl
  stays _ := rfl

/-- The thread that a visit finds is aged once. -/
theorem Passed.self (h : Passed ℓ k₀ k) (visit : Visit k ℓ t k') :
    Aged ℓ k₀.totalTicks (k₀.threads t) (k'.threads t) := by
  have ticks : k.totalTicks = k₀.totalTicks := by rw [h.frame]
  have aged := visit.self
  rw [ticks] at aged
  rcases h.inside t with eq | before
  · rw [← eq]
    exact aged
  · exact before.again aged id

theorem Passed.visit (h : Passed ℓ k₀ k) (visit : Visit k ℓ t k') (mem : t ∈ k.readyList ℓ) : Passed ℓ k₀ k' where
  settled := h.settled.elim fun _ settled => visit.settled settled mem
  frame := by
    rw [visit.frame, h.frame]
  ready u := (visit.ready mem u).trans (h.ready u)
  outside u hu := by
    have ne : u ≠ t := by
      rintro rfl
      exact hu (((h.outside u hu).2 ℓ).1 mem)
    exact ⟨(visit.others ne).trans (h.outside u hu).1, fun ℓ' => (visit.mem_others ne ℓ').trans ((h.outside u hu).2 ℓ')⟩
  inside u := by
    rcases eq_or_ne u t with rfl | ne
    · exact .inr (h.self visit)
    · rw [visit.others ne]
      exact h.inside u
  stays hℓ := by
    cases visit with
    | stays _ => exact h.stays hℓ
    | requeued moved =>
      subst hℓ
      exact absurd trivial moved

/-- **The loop over one queue** ends, ages every thread it found and keeps what its visits keep. -/
theorem pass_ok (h : Settled k₀ place) (ℓ : Level) (Q : Kernel → Prop) (start : Q k₀)
    (keeps : ∀ k t k', (∃ place, Settled k place) → Q k → t ∈ k.readyList ℓ → Visit k ℓ t k' → Q k') :
    ∃ k, k₀.pass ℓ = .ok k ∧ Passed ℓ k₀ k ∧ Q k ∧
      ∀ u ∈ k₀.readyList ℓ, Aged ℓ k₀.totalTicks (k₀.threads u) (k.threads u) := by
  rcases empty : k₀.readyList ℓ with _ | ⟨x, l⟩
  · exact ⟨k₀, by rw [pass, empty]; rfl, Passed.refl h ℓ, start, fun _ hu => (List.not_mem_nil hu).elim⟩
  obtain ⟨k, run, ⟨passed, q⟩, aged, -⟩ : ∃ k, k₀.pass ℓ = .ok k ∧ (Passed ℓ k₀ k ∧ Q k) ∧
      (∀ u ∈ k₀.readyList ℓ, Aged ℓ k₀.totalTicks (k₀.threads u) (k.threads u)) ∧
      ∀ u, Aged ℓ k₀.totalTicks (k₀.threads u) (k₀.threads u) → Aged ℓ k₀.totalTicks (k₀.threads u) (k.threads u) := by
    rw [pass, if_neg (by simp [empty])]
    refine Queue.walk_ok (p := []) (fun k => Passed ℓ k₀ k ∧ Q k)
      (fun u k => Aged ℓ k₀.totalTicks (k₀.threads u) (k.threads u)) (fun k r => Queue.effort k.priorityLE r) ?_ ?_
      ⟨Passed.refl h ℓ, start⟩ rfl (Queue.effort_lt k₀.priorityLE (k₀.readyList ℓ))
    · rintro k ⟨passed, -⟩
      obtain ⟨place, settled⟩ := passed.settled
      exact settled.nodup (.ready ℓ)
    · rintro k p t r ⟨passed, q⟩ here
      obtain ⟨place, settled⟩ := passed.settled
      have mem : t ∈ k.readyList ℓ := by simp [here]
      obtain ⟨k', run, visit⟩ := visit_ok settled.toPlaced mem
      refine ⟨k', run, ⟨passed.visit visit mem, keeps k t k' passed.settled q mem visit⟩, passed.self visit, ?_,
        visit.goesOn settled here⟩
      intro u aged
      rcases eq_or_ne u t with rfl | ne
      · exact passed.self visit
      · rw [visit.others ne]
        exact aged
  rw [empty] at aged
  exact ⟨k, run, passed, q, aged⟩

/-! ## `UpdatePriority` -/

/-- What `UpdatePriority` does. -/
structure Updated (k₀ k : Kernel) : Prop where
  settled : ∃ place, Settled k place
  frame : k = { k₀ with threads := k.threads, readyList := k.readyList }
  ready : ∀ u, u ∈ k.ready ↔ u ∈ k₀.ready
  outside : ∀ u, u ∉ k₀.ready → k.threads u = k₀.threads u
  aged : ∀ ℓ, ∀ u ∈ k₀.readyList ℓ, Aged ℓ k₀.totalTicks (k₀.threads u) (k.threads u)

theorem level_unique (h : Settled k place) {ℓ' : Level} (mem : u ∈ k.readyList ℓ) (mem' : u ∈ k.readyList ℓ') : ℓ = ℓ' := by
  have h1 := (h.mem (.ready ℓ) u).1 mem
  rw [(h.mem (.ready ℓ') u).1 mem'] at h1
  simpa using h1.symm

/-- **`UpdatePriority` returns**, has aged every ready thread once and keeps what visits keep. -/
theorem updatePriority_ok (h : Settled k₀ place) (Q : Kernel → Prop) (start : Q k₀)
    (keeps : ∀ ℓ k t k', (∃ place, Settled k place) → Q k → t ∈ k.readyList ℓ → Visit k ℓ t k' → Q k') :
    ∃ k, k₀.updatePriority = .ok k ∧ Updated k₀ k ∧ Q k := by
  obtain ⟨k₁, run₁, pass₁, q₁, aged₁⟩ := pass_ok h .L1 Q start (keeps .L1)
  obtain ⟨place₁, settled₁⟩ := pass₁.settled
  obtain ⟨k₂, run₂, pass₂, q₂, aged₂⟩ := pass_ok settled₁ .L2 Q q₁ (keeps .L2)
  obtain ⟨place₂, settled₂⟩ := pass₂.settled
  obtain ⟨k₃, run₃, pass₃, q₃, aged₃⟩ := pass_ok settled₂ .L3 Q q₂ (keeps .L3)
  have ticks₁ : k₁.totalTicks = k₀.totalTicks := by rw [pass₁.frame]
  have ticks₂ : k₂.totalTicks = k₀.totalTicks := by rw [pass₂.frame, ticks₁]
  have lists₁ := pass₁.stays rfl
  rw [ticks₁, lists₁] at aged₂
  rw [ticks₂] at aged₃
  refine ⟨k₃, ?_, ⟨pass₃.settled, ?_, ?_, ?_, ?_⟩, q₃⟩
  · rw [updatePriority, run₁]
    change (do
      let k ← k₁.pass .L2
      k.pass .L3) = _
    rw [run₂]
    exact run₃
  · rw [pass₃.frame, pass₂.frame, pass₁.frame]
  · intro u
    rw [pass₃.ready, pass₂.ready, pass₁.ready]
  · intro u hu
    have out : ∀ ℓ, u ∉ k₀.readyList ℓ := fun ℓ mem => hu (mem_ready.2 ⟨ℓ, mem⟩)
    have step₁ := pass₁.outside u (out .L1)
    have step₂ := pass₂.outside u (by rw [step₁.2]; exact out .L2)
    have step₃ := pass₃.outside u (by rw [step₂.2, step₁.2]; exact out .L3)
    rw [step₃.1, step₂.1, step₁.1]
  · intro ℓ u hu
    cases ℓ with
    | L1 =>
      have here : u ∈ k₁.readyList .L1 := by rwa [lists₁]
      have step₂ := pass₂.outside u fun h2 => by cases level_unique settled₁ here h2
      have here₂ := (step₂.2 .L1).2 here
      have step₃ := pass₃.outside u fun h3 => by cases level_unique settled₂ here₂ h3
      rw [step₃.1, step₂.1]
      exact aged₁ u hu
    | L2 =>
      have step₁ := pass₁.outside u fun h1 => by cases level_unique h hu h1
      have aged := aged₂ u hu
      rw [step₁.1] at aged
      rcases pass₃.inside u with eq | again
      · rw [eq]
        exact aged
      · rw [ticks₂] at again
        exact aged.again again (by simp)
    | L3 =>
      have step₁ := pass₁.outside u fun h1 => by cases level_unique h hu h1
      have here := (step₁.2 .L3).2 hu
      have step₂ := pass₂.outside u fun h2 => by cases level_unique settled₁ here h2
      have here₂ := (step₂.2 .L3).2 here
      have aged := aged₃ u here₂
      rw [step₂.1, step₁.1] at aged
      exact aged

end Kernel

end Nachos.Mp3
