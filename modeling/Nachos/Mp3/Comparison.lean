import Mathlib.Data.Rat.Floor
import Nachos.Mp3.Conservation

/-!
# The comparison of the alarm

`Alarm::CallBack` compares the running thread with the front of `L1` by the time they are
expected to use, the quantity of `cmp_BurstTime`. It converts both times to `int` and does
not cut them off at 0: between two times with the same integer part it sees no difference,
and between two threads that have overrun their estimates it sees one.
-/

namespace Nachos.Mp3
open Transition

/-- The estimate less the time used, as `cmp_BurstTime` has it before it is cut off at 0. -/
def Thread.balance (t : Thread) : ℚ := t.burstTime - t.useTime

/-- The alarm finds the balance `c` of the running thread above the balance `f` of the front exactly
when `cmp_BurstTime` does. -/
def Comparable (c f : ℚ) : Prop :=
  if 0 < c then c ≤ f ∨ Kernel.truncate c ≠ Kernel.truncate f else Kernel.truncate c ≤ Kernel.truncate f

namespace Thread

variable {t u : Thread}

theorem remaining_nonneg (t : Thread) : 0 ≤ t.remaining := by
  rw [remaining]
  split
  · exact le_rfl
  · next h => exact not_lt.1 h

theorem remaining_of_pos (h : 0 < t.balance) : t.remaining = t.balance := if_neg (not_lt.2 h.le)

theorem remaining_of_nonpos (h : t.balance ≤ 0) : t.remaining = 0 := by
  rw [remaining]
  split
  · rfl
  · next more => exact le_antisymm h (not_lt.1 more)

/-- Cutting off at 0 does not change the comparison with a positive balance. -/
theorem remaining_lt_iff (h : 0 < u.balance) : t.remaining < u.remaining ↔ t.balance < u.balance := by
  rw [remaining_of_pos h]
  rcases lt_or_ge 0 t.balance with pos | nonpos
  · rw [remaining_of_pos pos]
  · rw [remaining_of_nonpos nonpos]
    exact iff_of_true h (nonpos.trans_lt h)

end Thread

namespace Kernel

variable {k k' : Kernel} {place : ThreadPtr → Place} {t : ThreadPtr} {ℓ : Level} {p q : ℚ}

/-! ## The conversion to `int` -/

theorem truncate_of_nonneg (h : 0 ≤ q) : truncate q = ⌊q⌋ := by
  rw [truncate, Rat.floor_def', Int.tdiv_eq_ediv_of_nonneg (Rat.num_nonneg.2 h)]

theorem truncate_of_nonpos (h : q ≤ 0) : truncate q = ⌈q⌉ := by
  have nonneg : 0 ≤ -q.num := neg_nonneg.2 (Rat.num_nonpos.2 h)
  rw [truncate, Rat.ceil_def', ← Int.tdiv_eq_ediv_of_nonneg nonneg, Int.neg_tdiv, neg_neg]

theorem truncate_mono (le : p ≤ q) : truncate p ≤ truncate q := by
  rcases le_total 0 p with nonneg | nonpos
  · rw [truncate_of_nonneg nonneg, truncate_of_nonneg (nonneg.trans le)]
    exact Int.floor_mono le
  rcases le_total q 0 with below | above
  · rw [truncate_of_nonpos nonpos, truncate_of_nonpos below]
    exact Int.ceil_mono le
  · rw [truncate_of_nonpos nonpos, truncate_of_nonneg above]
    have up : ⌈p⌉ ≤ 0 := Int.ceil_le.2 (by simpa using nonpos)
    exact up.trans (Int.floor_nonneg.2 above)

/-- When the two comparisons come out the same. -/
theorem comparable_iff {front this : Thread} : ((truncate front.balance < truncate this.balance) ↔ front.remaining < this.remaining) ↔
    Comparable this.balance front.balance := by
  rw [Comparable]
  by_cases pos : 0 < this.balance
  · rw [if_pos pos, Thread.remaining_lt_iff pos]
    constructor
    · intro same
      by_contra wrong
      rw [not_or, not_le, not_not] at wrong
      obtain ⟨less, eq⟩ := wrong
      exact absurd (same.2 less) (by rw [eq]; exact lt_irrefl _)
    · rintro (le | apart)
      · exact iff_of_false (not_lt.2 (truncate_mono le)) (not_lt.2 le)
      · refine ⟨fun less => ?_, fun less => ?_⟩
        · by_contra more
          exact absurd less (not_lt.2 (truncate_mono (not_lt.1 more)))
        · exact lt_of_le_of_ne (truncate_mono less.le) apart.symm
  · have none : ¬ front.remaining < this.remaining := by
      rw [Thread.remaining_of_nonpos (not_lt.1 pos)]
      exact not_lt.2 front.remaining_nonneg
    rw [if_neg pos, iff_false_right none, not_lt]

/-! ## The alarm -/

/-- The estimates and the use times are those of another state. -/
def SameTimes (k k' : Kernel) : Prop :=
  ∀ t, (k'.threads t).burstTime = (k.threads t).burstTime ∧ (k'.threads t).useTime = (k.threads t).useTime

/-- A visit of `UpdatePriority` leaves them alone. -/
theorem Visit.times (h : Visit k ℓ t k') : SameTimes k k' := by
  intro u
  by_cases same : u = t
  · subst same
    obtain ⟨w, n, p, eq⟩ := Thread.aging_eq k.totalTicks ((k.totalTicks : Int) - (k.threads u).waitStartTime) (k.threads u)
    cases h with
    | stays _ =>
      rw [aged_threads, Function.update_self, agedThread, eq]
      exact ⟨rfl, rfl⟩
    | requeued _ =>
      rw [enqueued_threads, Function.update_self, dequeued_threads, aged_threads, Function.update_self, agedThread, eq]
      exact ⟨rfl, rfl⟩
  · rw [h.others same]
    exact ⟨rfl, rfl⟩

/-- The rule for a thread of the highest level. -/
theorem preempts_of_high {l : List ThreadPtr} (high : 100 ≤ (k.threads k.currentThread).priority) (front : k.readyList .L1 = t :: l) :
    k.preempts = true ↔ truncate (k.threads t).balance < truncate (k.charged.threads k.currentThread).balance := by
  have balance : (k.charged.threads k.currentThread).balance =
      (k.threads k.currentThread).burstTime - (k.threads k.currentThread).useTime -
        (k.totalTicks - (k.threads k.currentThread).burstStartTime) := by
    rw [charged, modify_threads, Function.update_self, Thread.balance, sub_sub]
  rw [preempts, if_neg (by omega), if_neg (by omega), L1FrontRemain, front, balance, Thread.balance]
  simp only [List.isEmpty_cons, Bool.false_eq_true, not_false_eq_true, true_and, gt_iff_lt, decide_eq_true_eq]

end Kernel

open Kernel

variable {k : Kernel} {place : ThreadPtr → Place}

/-- **Preemption at `L1`.** The alarm asks a thread of the highest level to yield exactly when the front
of `L1` comes before it in the order of `L1`, for the balances for which the two comparisons agree. -/
theorem preemption_iff (h : Settled k place) (phase : k.phase = .running) (high : 100 ≤ (k.threads k.currentThread).priority)
    (calm : k.yieldOnReturn = false) : ∃ k', k.callBack = .ok k' ∧ ∀ t l, k'.readyList .L1 = t :: l →
      ((k'.yieldOnReturn = true ↔ (k.threads t).remaining < (k.charged.threads k.currentThread).remaining) ↔
        Comparable (k.charged.threads k.currentThread).balance (k.threads t).balance) := by
  obtain ⟨k₁, flag, place', called, updated, times, noted, -⟩ := h.callBack (SameTimes k) (fun _ => ⟨rfl, rfl⟩)
    fun ℓ k₁ t k₂ _ same _ visit u => ⟨(visit.times u).1.trans (same u).1, (visit.times u).2.trans (same u).2⟩
  refine ⟨_, called, fun t l front => ?_⟩
  have out := Settled.not_ready h.toPlaced (Settled.free_of_running (h.current (by simp [phase])))
  have self : k₁.threads k.currentThread = k.threads k.currentThread := updated.outside _ fun mem => (mem_ready.1 mem).elim out
  have current : k₁.currentThread = k.currentThread := by rw [updated.frame]
  have ticks : k₁.totalTicks = k.totalTicks := by rw [updated.frame]
  have burst : k₁.charged.threads k₁.currentThread = k.charged.threads k.currentThread := by
    rw [charged, charged, modify_threads, modify_threads, Function.update_self, Function.update_self, current, self, ticks]
  have balance : (k₁.threads t).balance = (k.threads t).balance := by
    rw [Thread.balance, Thread.balance, (times t).1, (times t).2]
  have rule := preempts_of_high (k := k₁) (by rw [current, self]; exact high) front
  rw [burst, balance] at rule
  have asks : flag = true ↔ truncate (k.threads t).balance < truncate (k.charged.threads k.currentThread).balance := by
    rw [noted, calm, ← rule]
    simp only [Bool.false_eq_true, false_or, phase, and_true]
  change ((flag = true ↔ _) ↔ _)
  rw [asks]
  exact comparable_iff

/-- The state after a step that returns. -/
def Kernel.after (k : Kernel) (e : Event) : Kernel := (k.step e).toOption.getD k

theorem Reachable.after (reach : Reachable k) (e : Event) (enabled : k.Enabled e) : Reachable (k.after e) := by
  obtain ⟨place, settled⟩ := Settled.of_reach reach
  obtain ⟨k', -, run, -⟩ := settled.next enabled
  rw [Kernel.after, run]
  exact reach.next e enabled run

/-- Two threads of the highest level without an estimate. The first has run for 20 ticks and has made room
for the second. -/
def overrun : Kernel :=
  [.fork 1 1 120, .fork 2 2 120, .yield, .switchedTo, .tick 20, .yield, .switchedTo].foldl Kernel.after (Kernel.initial 0 fun _ => 0)

theorem reachable_overrun : Reachable overrun := by
  have start : Reachable (Kernel.initial 0 fun _ => 0) := .init ⟨0, _, rfl⟩
  have forked := (start.after (.fork 1 1 120) ⟨rfl, by decide⟩).after (.fork 2 2 120) ⟨rfl, by decide⟩
  have first := (forked.after .yield rfl).after .switchedTo (by change _ = _; decide +kernel)
  have ran := first.after (.tick 20) (by change _ ≠ _; decide +kernel)
  exact (ran.after .yield (by change _ = _; decide +kernel)).after .switchedTo (by change _ = _; decide +kernel)

/-- The alarm goes off. -/
theorem callBack_overrun : overrun.callBack = .ok (overrun.after .alarm) := by
  obtain ⟨place, settled⟩ := Settled.of_reach reachable_overrun
  obtain ⟨k', -, run, -⟩ := settled.next (e := .alarm) (by change _ ≠ _; decide +kernel)
  rw [Kernel.after, run]
  exact run

theorem preemption_iff_overrun : ((overrun.after .alarm).yieldOnReturn = true ↔
    (overrun.threads 1).remaining < (overrun.charged.threads overrun.currentThread).remaining) ↔ Comparable 0 (-20) := by
  obtain ⟨place, settled⟩ := Settled.of_reach reachable_overrun
  obtain ⟨k', called, agree⟩ := preemption_iff settled (by decide +kernel) (by decide +kernel) (by decide +kernel)
  rw [callBack_overrun] at called
  cases called
  have agrees := agree 1 [] (by decide +kernel)
  rwa [show (overrun.charged.threads overrun.currentThread).balance = 0 by decide +kernel,
    show (overrun.threads 1).balance = -20 by decide +kernel] at agrees

/-- Neither thread has time left, and the alarm asks for a yield. -/
theorem overrun_preempted : Reachable overrun ∧ overrun.phase = .running ∧ 100 ≤ (overrun.threads overrun.currentThread).priority ∧
    ∃ k' t, overrun.callBack = .ok k' ∧ k'.readyList .L1 = [t] ∧ overrun.yieldOnReturn = false ∧ k'.yieldOnReturn = true ∧
      ¬ (overrun.threads t).remaining < (overrun.charged.threads overrun.currentThread).remaining :=
  ⟨reachable_overrun, by decide +kernel, by decide +kernel, _, 1, callBack_overrun, by decide +kernel, by decide +kernel,
    by decide +kernel, by decide +kernel⟩

end Nachos.Mp3
