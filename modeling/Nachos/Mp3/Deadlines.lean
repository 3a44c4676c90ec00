import Mathlib.Tactic.Linarith
import Nachos.Mp3.Interrupt
import Nachos.Mp3.SortedList

/-!
# Interrupts in time

An interrupt is called when it is due and not before, in the order of the times, and once. What is
scheduled while handlers run is due later, so that the loop of `CheckIfDue` calls what was due when it
began, and ends.
-/

namespace Nachos.Mp3
open Transition Cells

/-- What a handler may call. -/
def HandlerCall.Allowed : HandlerCall → Prop
  | .schedule _ fromNow _ => 0 < fromNow
  | .yieldOnReturn => True
  | .setLevel now => now = .intOff

def Handlers.Allowed (handlers : Handlers) : Prop := ∀ toCall s, ∀ call ∈ handlers toCall s, call.Allowed

namespace Interrupts

variable {s s' : Interrupts} {handlers : Handlers} {x : PendingInterrupt}

theorem pendingCompare_lt (x y : PendingInterrupt) : pendingCompare x y < 0 ↔ x.when < y.when := by
  unfold pendingCompare
  split_ifs <;> simp_all

/-- The books of the queue. -/
structure Sound (s : Interrupts) : Prop where
  pending_sorted : s.pending.Pairwise fun x y => x.when ≤ y.when
  called_sorted : s.called.Pairwise fun x y => x.1.when ≤ y.1.when
  earlier : ∀ c ∈ s.called, ∀ x ∈ s.pending, c.1.when ≤ x.when
  on_time : ∀ c ∈ s.called, c.1.when ≤ c.2 ∧ c.2 ≤ s.stats.totalTicks
  kept : (s.called.map Prod.fst ++ s.pending).Perm s.scheduled
  addresses : s.scheduled.map PendingInterrupt.address = List.range s.scheduled.length
  accounted : s.stats.totalTicks = s.stats.systemTicks + s.stats.userTicks + s.stats.idleTicks

/-- No interrupt that is pending is due. -/
def NothingDue (s : Interrupts) : Prop := ∀ x ∈ s.pending, s.stats.totalTicks < x.when

/-- How many of the interrupts that are pending are due. -/
def dueCount (s : Interrupts) : ℕ := s.pending.countP fun x => x.when ≤ s.stats.totalTicks

theorem sound_initial : initial.Sound where
  pending_sorted := .nil
  called_sorted := .nil
  earlier := by simp [initial]
  on_time := by simp [initial]
  kept := .nil
  addresses := rfl
  accounted := rfl

/-- The level, the status and the flags do not count. -/
theorem Sound.changed (h : s.Sound) (i : Interrupt) (same : i.pending = s.pending) :
    ({ s with toInterrupt := i } : Interrupts).Sound := by
  obtain ⟨level, pending, inHandler, yieldOnReturn, status⟩ := i
  obtain rfl := same
  exact ⟨h.pending_sorted, h.called_sorted, h.earlier, h.on_time, h.kept, h.addresses, h.accounted⟩

theorem Sound.changeLevel (h : s.Sound) (now : IntStatus) : (s.changeLevel now).Sound := h.changed _ rfl

/-- A new object has an address of its own. -/
theorem Sound.fresh (h : s.Sound) : s.scheduled.length ∉ s.pending.map PendingInterrupt.address := by
  intro mem
  obtain ⟨x, pending, same⟩ := List.mem_map.1 mem
  have known : x ∈ s.scheduled := h.kept.subset (List.mem_append_right _ pending)
  have counted := List.mem_map_of_mem (f := PendingInterrupt.address) known
  rw [h.addresses, List.mem_range, same] at counted
  exact lt_irrefl _ counted

/-- Time passes on one of the clocks. -/
theorem Sound.ticked (h : s.Sound) (stats : Statistics) (later : s.stats.totalTicks ≤ stats.totalTicks)
    (accounted : stats.totalTicks = stats.systemTicks + stats.userTicks + stats.idleTicks) :
    ({ s with stats := stats } : Interrupts).Sound :=
  { h with
    on_time := fun c mem => ⟨(h.on_time c mem).1, (h.on_time c mem).2.trans later⟩
    accounted := accounted }

/-! ## The calls of a handler -/

/-- A computation that ends in the range of an `int`, or leaves it. -/
def Returns {α : Type} (m : Except Stop α) : Prop := ∀ e, m = .error e → e = .overflow

theorem returns_ok {α : Type} (a : α) : Returns (.ok a : Except Stop α) := fun _ h => nomatch h

theorem returns_int (n : ℤ) : Returns (int n) := by
  intro e failed
  unfold int at failed
  split at failed
  · cases failed
  · exact (Except.error.inj failed).symm

theorem int_ok {n m : ℤ} (done : int n = .ok m) : m = n := by
  unfold int at done
  split at done
  · exact (Except.ok.inj done).symm
  · cases done

theorem Returns.bind {α β : Type} {m : Except Stop α} {f : α → Except Stop β} (h : Returns m)
    (next : ∀ a, m = .ok a → Returns (f a)) : Returns (m >>= f) := by
  cases m with
  | error e =>
    intro e' failed
    cases failed
    exact h e rfl
  | ok a => exact next a rfl

/-- What `Schedule` does. -/
theorem schedule_ok {toCall : CallBackObj} {fromNow : ℤ} {type : IntType} (done : s.schedule toCall fromNow type = .ok s') :
    ∃ x : PendingInterrupt, x.address = s.scheduled.length ∧ s.stats.totalTicks < x.when ∧ s' = s.inserted x := by
  obtain ⟨time, sum, done⟩ := bind_ok done
  obtain rfl := int_ok sum
  dsimp only at done
  split_ifs at done with early
  · exact ⟨_, rfl, by simpa using early, (Except.ok.inj done).symm⟩

theorem schedule_returns (h : s.Sound) {toCall : CallBackObj} {fromNow : ℤ} {type : IntType} (later : 0 < fromNow) :
    Returns (s.schedule toCall fromNow type) := by
  apply (returns_int _).bind
  intro time _
  dsimp only
  rw [if_neg (not_le.2 later), if_neg h.fresh]
  exact returns_ok _

theorem mem_inserted {y : PendingInterrupt} : y ∈ (s.inserted x).pending ↔ y = x ∨ y ∈ s.pending := List.mem_orderedInsert _

theorem Sound.inserted (h : s.Sound) (new : x.address = s.scheduled.length) (later : s.stats.totalTicks < x.when) :
    (s.inserted x).Sound where
  pending_sorted := Queue.pairwise_orderedInsert_of_key pendingCompare_lt x h.pending_sorted
  called_sorted := h.called_sorted
  earlier := by
    intro c mem y pending
    obtain rfl | pending := mem_inserted.1 pending
    · obtain ⟨due, past⟩ := h.on_time c mem
      exact due.trans (past.trans later.le)
    · exact h.earlier c mem y pending
  on_time := h.on_time
  kept := by
    have insertion : (s.inserted x).pending.Perm (x :: s.pending) := List.perm_orderedInsert _ x s.pending
    calc List.Perm (s.called.map Prod.fst ++ (s.inserted x).pending) (s.called.map Prod.fst ++ x :: s.pending) :=
          insertion.append_left _
      List.Perm _ (x :: (s.called.map Prod.fst ++ s.pending)) := List.perm_middle
      List.Perm _ (x :: s.scheduled) := h.kept.cons x
      List.Perm _ (s.scheduled ++ [x]) := (List.perm_append_singleton x s.scheduled).symm
  addresses := by
    change (s.scheduled ++ [x]).map PendingInterrupt.address = List.range (s.scheduled ++ [x]).length
    rw [List.map_append, h.addresses, List.length_append, List.length_singleton, List.range_succ, List.map_singleton, new]
  accounted := h.accounted

/-- What the calls of a handler leave as it is. -/
structure Served (s s' : Interrupts) : Prop where
  sound : s'.Sound
  stats : s'.stats = s.stats
  called : s'.called = s.called
  inHandler : s'.inHandler = s.inHandler
  dueCount : s'.dueCount = s.dueCount

theorem dueCount_inserted (later : s.stats.totalTicks < x.when) : (s.inserted x).dueCount = s.dueCount := by
  have insertion : (s.inserted x).pending.Perm (x :: s.pending) := List.perm_orderedInsert _ x s.pending
  change (s.inserted x).pending.countP (fun y => y.when ≤ s.stats.totalTicks) = _
  rw [insertion.countP_eq, List.countP_cons_of_neg (by simpa using later)]
  rfl

theorem handle_ok (h : s.Sound) {call : HandlerCall} (done : s.handle call = .ok s') : s.Served s' := by
  cases call with
  | schedule toCall fromNow type =>
    obtain ⟨x, new, later, rfl⟩ := schedule_ok done
    exact ⟨h.inserted new later, rfl, rfl, rfl, dueCount_inserted later⟩
  | yieldOnReturn =>
    simp only [handle] at done
    split at done
    · cases done
      exact ⟨h.changed _ rfl, rfl, rfl, rfl, rfl⟩
    · cases done
  | setLevel now =>
    cases now with
    | intOff =>
      cases done
      exact ⟨h.changed _ rfl, rfl, rfl, rfl, rfl⟩
    | intOn => cases done

theorem handles_ok (h : s.Sound) {calls : List HandlerCall} (done : calls.foldlM handle s = .ok s') : s.Served s' := by
  induction calls generalizing s with
  | nil =>
    cases done
    exact ⟨h, rfl, rfl, rfl, rfl⟩
  | cons call calls ih =>
    rw [List.foldlM_cons] at done
    obtain ⟨t, first, done⟩ := bind_ok done
    have one := handle_ok h first
    have rest := ih one.sound done
    exact ⟨rest.sound, rest.stats.trans one.stats, rest.called.trans one.called, rest.inHandler.trans one.inHandler,
      rest.dueCount.trans one.dueCount⟩

theorem handle_returns (h : s.Sound) (inside : s.inHandler = true) {call : HandlerCall} (allowed : call.Allowed) :
    Returns (s.handle call) := by
  cases call with
  | schedule toCall fromNow type => exact schedule_returns h allowed
  | yieldOnReturn =>
    rw [handle, if_pos inside]
    exact returns_ok _
  | setLevel now =>
    obtain rfl : now = .intOff := allowed
    exact returns_ok _

theorem handles_returns (h : s.Sound) (inside : s.inHandler = true) {calls : List HandlerCall}
    (allowed : ∀ call ∈ calls, call.Allowed) : Returns (calls.foldlM handle s) := by
  induction calls generalizing s with
  | nil => exact returns_ok s
  | cons call calls ih =>
    obtain ⟨this, others⟩ := List.forall_mem_cons.1 allowed
    rw [List.foldlM_cons]
    apply (handle_returns h inside this).bind
    intro t done
    have one := handle_ok h done
    exact ih one.sound (one.inHandler.trans inside) others

/-! ## The loop -/

/-- The state in which the handler of the first pending interrupt is called. -/
def popped (next : PendingInterrupt) (pending : List PendingInterrupt) (s : Interrupts) : Interrupts :=
  { s with pending := pending, called := s.called ++ [(next, s.stats.totalTicks)] }

theorem due_iff : s.due = true ↔ ∃ next pending, s.pending = next :: pending ∧ next.when ≤ s.stats.totalTicks := by
  unfold due
  cases s.pending <;> simp

theorem Sound.popped (h : s.Sound) {next : PendingInterrupt} {pending : List PendingInterrupt} (front : s.pending = next :: pending)
    (due : next.when ≤ s.stats.totalTicks) : (s.popped next pending).Sound := by
  have sorted := h.pending_sorted
  rw [front, List.pairwise_cons] at sorted
  refine ⟨sorted.2, ?_, ?_, ?_, ?_, h.addresses, h.accounted⟩
  · refine List.pairwise_append.2 ⟨h.called_sorted, List.pairwise_singleton _ _, fun c mem d last => ?_⟩
    obtain rfl := List.mem_singleton.1 last
    exact h.earlier c mem next (front ▸ List.mem_cons_self)
  · intro c mem x later
    obtain mem | last := List.mem_append.1 mem
    · exact h.earlier c mem x (front ▸ List.mem_cons_of_mem next later)
    · obtain rfl := List.mem_singleton.1 last
      exact sorted.1 x later
  · intro c mem
    obtain mem | last := List.mem_append.1 mem
    · exact h.on_time c mem
    · obtain rfl := List.mem_singleton.1 last
      exact ⟨due, le_rfl⟩
  · have same : (s.popped next pending).called.map Prod.fst ++ pending = s.called.map Prod.fst ++ s.pending := by
      simp [Interrupts.popped, front]
    exact same ▸ h.kept

theorem dueCount_popped {next : PendingInterrupt} {pending : List PendingInterrupt} (front : s.pending = next :: pending)
    (due : next.when ≤ s.stats.totalTicks) : (s.popped next pending).dueCount + 1 = s.dueCount := by
  unfold dueCount
  rw [front, List.countP_cons_of_pos (by simpa using due)]
  rfl

/-- What a round of the loop leaves. -/
theorem callFront_ok (h : s.Sound) (due : s.due = true) (done : s.callFront handlers = .ok s') :
    s'.Sound ∧ s'.stats = s.stats ∧ s'.inHandler = s.inHandler ∧ s'.dueCount + 1 = s.dueCount := by
  obtain ⟨next, pending, front, due⟩ := due_iff.1 due
  unfold callFront at done
  simp only [front] at done
  have served := handles_ok (h.popped front due) done
  have count := dueCount_popped front due
  exact ⟨served.sound, served.stats, served.inHandler, served.dueCount ▸ count⟩

theorem callFront_returns (h : s.Sound) (due : s.due = true) (inside : s.inHandler = true)
    (allowed : handlers.Allowed) : Returns (s.callFront handlers) := by
  obtain ⟨next, pending, front, due⟩ := due_iff.1 due
  unfold callFront
  simp only [front]
  exact handles_returns (h.popped front due) inside (allowed _ _)

/-- The front is the first interrupt that is due. -/
theorem Sound.nothingDue (h : s.Sound) (notDue : ¬ s.due = true) : s.NothingDue := by
  intro x mem
  cases front : s.pending with
  | nil => simp [front] at mem
  | cons next pending =>
    have later : s.stats.totalTicks < next.when := by
      rw [due_iff] at notDue
      exact not_le.1 fun due => notDue ⟨next, pending, front, due⟩
    have sorted := h.pending_sorted
    rw [front, List.pairwise_cons] at sorted
    obtain rfl | mem := List.mem_cons.1 (front ▸ mem)
    · exact later
    · exact later.trans_le (sorted.1 x mem)

/-- **The loop calls what is due.** -/
theorem callHandlers_ok (h : s.Sound) (due : s.due = true) {fuel : ℕ} (done : callHandlers handlers fuel s = .ok s') :
    s'.Sound ∧ s'.stats = s.stats ∧ s'.NothingDue := by
  induction fuel generalizing s with
  | zero => cases done
  | succ fuel ih =>
    obtain ⟨t, first, done⟩ := bind_ok done
    obtain ⟨sound, stats, -, -⟩ := callFront_ok h due first
    split at done
    case isTrue again =>
      obtain ⟨sound', stats', nothing⟩ := ih sound again done
      exact ⟨sound', stats'.trans stats, nothing⟩
    case isFalse finished =>
      cases done
      exact ⟨sound, stats, sound.nothingDue finished⟩

/-- **The loop ends.** Each round leaves one interrupt less that is due. -/
theorem callHandlers_returns (h : s.Sound) (due : s.due = true) (inside : s.inHandler = true)
    (allowed : handlers.Allowed) {fuel : ℕ} (enough : s.dueCount ≤ fuel) :
    Returns (callHandlers handlers fuel s) := by
  induction fuel generalizing s with
  | zero =>
    obtain ⟨next, pending, front, due⟩ := due_iff.1 due
    have count := dueCount_popped front due
    omega
  | succ fuel ih =>
    apply (callFront_returns h due inside allowed).bind
    intro t first
    obtain ⟨sound, stats, same, count⟩ := callFront_ok h due first
    split
    case isTrue again => exact ih sound again (same.trans inside) (by omega)
    case isFalse => exact returns_ok _

theorem fire_ok (h : s.Sound) (due : s.due = true) {b : Bool} (done : s.fire handlers = .ok (b, s')) :
    s'.Sound ∧ s'.stats = s.stats ∧ s'.inHandler = false ∧ s'.NothingDue := by
  obtain ⟨t, loop, done⟩ := bind_ok done
  cases done
  obtain ⟨sound, stats, nothing⟩ := callHandlers_ok (h.changed { s.toInterrupt with inHandler := true } rfl) due loop
  exact ⟨sound.changed _ rfl, stats, rfl, nothing⟩

theorem fire_true {b : Bool} (done : s.fire handlers = .ok (b, s')) : b = true := by
  obtain ⟨t, -, done⟩ := bind_ok done
  cases done
  rfl

theorem fire_returns (h : s.Sound) (due : s.due = true) (allowed : handlers.Allowed) :
    Returns (s.fire handlers) := by
  have loop := callHandlers_returns (h.changed { s.toInterrupt with inHandler := true } rfl) due rfl allowed List.countP_le_length
  exact loop.bind fun t _ => returns_ok _

/-! ## The cells of the queue -/

variable {h : Heap PendingInterrupt} {l : LinkedList}

/-- The list `pending` has the interrupts of the queue as its items. -/
def Linked (h : Heap PendingInterrupt) (l : LinkedList) (s : Interrupts) : Prop :=
  ∃ cells, l.Holds h cells ∧ cells.map Prod.snd = s.pending

/-- `Insert` of a new object on the cells does what it does on the queue. -/
theorem Linked.insert (linked : Linked h l s) (sound : s.Sound) (new : x.address = s.scheduled.length) {fuel : ℕ}
    (enough : s.pending.length < fuel) : ∃ h' l', l.insert pendingCompare fuel h x = .ok (h', l') ∧ Linked h' l' (s.inserted x) := by
  obtain ⟨cells, holds, items⟩ := linked
  have absent : x ∉ cells.map Prod.snd := by
    rw [items]
    intro mem
    exact sound.fresh (new ▸ List.mem_map_of_mem mem)
  rw [← items, List.length_map] at enough
  obtain ⟨h', l', done, holds'⟩ := LinkedList.insert_ok holds absent enough
  refine ⟨h', l', done, _, holds', ?_⟩
  rw [LinkedList.map_insert, items]
  rfl

/-- So does `RemoveFront`. -/
theorem Linked.removeFront (linked : Linked h l s) {next : PendingInterrupt} {pending : List PendingInterrupt}
    (front : s.pending = next :: pending) :
    ∃ h' l', l.removeFront h = .ok (next, h', l') ∧ Linked h' l' (s.popped next pending) := by
  obtain ⟨cells, holds, items⟩ := linked
  obtain ⟨⟨a, first⟩, rest, rfl, same, items⟩ := List.map_eq_cons_iff.1 (items.trans front)
  subst same
  obtain ⟨h', l', done, holds'⟩ := LinkedList.removeFront_ok holds
  exact ⟨h', l', done, rest, holds', items⟩

/-! ## The calls from outside -/

/-- What a call leaves: the books are right, no handler runs, and the clock has not been set back. -/
structure After (s s' : Interrupts) : Prop where
  sound : s'.Sound
  outside : s'.inHandler = false
  clock : s.stats.totalTicks ≤ s'.stats.totalTicks

/-- The idle clock runs until the first interrupt is due. -/
theorem Sound.jumped (h : s.Sound) {next : PendingInterrupt} (later : s.stats.totalTicks < next.when) {wait idleTicks : ℤ}
    (difference : int (next.when - s.stats.totalTicks) = .ok wait) (sum : int (s.stats.idleTicks + wait) = .ok idleTicks) :
    ({ s with stats := { s.stats with idleTicks := idleTicks, totalTicks := next.when } } : Interrupts).Sound := by
  obtain rfl := int_ok difference
  obtain rfl := int_ok sum
  have accounted := h.accounted
  exact h.ticked _ later.le (by dsimp only; omega)

/-- What a call of `CheckIfDue` leaves. -/
theorem checkIfDue_ok (h : s.Sound) (outside : s.inHandler = false) {advanceClock b : Bool}
    (done : s.checkIfDue handlers advanceClock = .ok (b, s')) : s.After s' ∧ s'.NothingDue := by
  unfold checkIfDue at done
  split at done
  · cases done
  · split at done
    case h_1 empty =>
      cases done
      refine ⟨⟨h, outside, le_rfl⟩, fun x mem => ?_⟩
      rw [empty] at mem
      cases mem
    case h_2 next pending front =>
      split at done
      case isTrue later =>
        split at done
        case isTrue stay =>
          cases done
          have notDue : ¬ s.due = true := by
            rw [due_iff]
            rintro ⟨_, _, front', due⟩
            cases front.symm.trans front'
            exact not_le.2 later due
          exact ⟨⟨h, outside, le_rfl⟩, h.nothingDue notDue⟩
        case isFalse jump =>
          -- the clock is set to the time of the first interrupt
          obtain ⟨wait, difference, done⟩ := bind_ok done
          obtain ⟨idleTicks, sum, done⟩ := bind_ok done
          have advanced := h.jumped later difference sum
          obtain ⟨sound, stats, outside', nothing⟩ := fire_ok advanced (due_iff.2 ⟨next, pending, front, le_rfl⟩) done
          refine ⟨⟨sound, outside', ?_⟩, nothing⟩
          rw [stats]
          exact later.le
      case isFalse now =>
        have due := due_iff.2 ⟨next, pending, front, not_lt.1 now⟩
        obtain ⟨sound, stats, outside', nothing⟩ := fire_ok h due done
        exact ⟨⟨sound, outside', stats ▸ le_rfl⟩, nothing⟩

theorem checkIfDue_returns (h : s.Sound) (off : s.level = .intOff)
    (allowed : handlers.Allowed) (advanceClock : Bool) :
    Returns (s.checkIfDue handlers advanceClock) := by
  unfold checkIfDue
  rw [if_neg (not_not.2 off)]
  split
  case h_1 => exact returns_ok _
  case h_2 next pending front =>
    split_ifs with later stay
    · exact returns_ok _
    · apply (returns_int _).bind
      intro wait difference
      apply (returns_int _).bind
      intro idleTicks sum
      exact fire_returns (h.jumped later difference sum) (due_iff.2 ⟨next, pending, front, le_rfl⟩) allowed
    · exact fire_returns h (due_iff.2 ⟨next, pending, front, not_lt.1 later⟩) allowed

/-- What `OneTick` does to the clocks. -/
theorem advance_ok (h : s.Sound) (done : s.advance = .ok s') :
    s'.Sound ∧ s'.toInterrupt = s.toInterrupt ∧ s.stats.totalTicks ≤ s'.stats.totalTicks := by
  have accounted := h.accounted
  unfold advance at done
  split at done
  all_goals
    obtain ⟨total, sum, done⟩ := bind_ok done
    obtain ⟨part, sum', done⟩ := bind_ok done
    obtain rfl := int_ok sum
    obtain rfl := int_ok sum'
    cases done
  · have later : s.stats.totalTicks ≤ s.stats.totalTicks + systemTick := by unfold systemTick; omega
    exact ⟨h.ticked _ later (by dsimp only; omega), rfl, later⟩
  · have later : s.stats.totalTicks ≤ s.stats.totalTicks + userTick := by unfold userTick; omega
    exact ⟨h.ticked _ later (by dsimp only; omega), rfl, later⟩

theorem advance_returns (s : Interrupts) : Returns s.advance := by
  unfold advance
  split
  all_goals
    apply (returns_int _).bind
    intro total _
    apply (returns_int _).bind
    intro part _
    exact returns_ok _

theorem oneTick_ok (h : s.Sound) (outside : s.inHandler = false) (done : s.oneTick handlers = .ok s') :
    s.After s' ∧ s'.NothingDue := by
  obtain ⟨t, tick, done⟩ := bind_ok done
  obtain ⟨ticked, same, later⟩ := advance_ok h tick
  obtain ⟨⟨b, u⟩, check, done⟩ := bind_ok done
  have out : t.inHandler = false := (congrArg Interrupt.inHandler same).trans outside
  obtain ⟨⟨sound, outside', clock⟩, nothing⟩ := checkIfDue_ok (ticked.changeLevel .intOff) out check
  have clock' := later.trans clock
  dsimp only at done
  split at done
  · cases done
    exact ⟨⟨sound.changed _ rfl, outside', clock'⟩, nothing⟩
  · cases done
    exact ⟨⟨sound.changed _ rfl, outside', clock'⟩, nothing⟩

theorem oneTick_returns (h : s.Sound) (allowed : handlers.Allowed) :
    Returns (s.oneTick handlers) := by
  apply (advance_returns s).bind
  intro t tick
  obtain ⟨ticked, -, -⟩ := advance_ok h tick
  apply (checkIfDue_returns (ticked.changeLevel .intOff) rfl allowed false).bind
  rintro ⟨b, u⟩ -
  dsimp only
  split
  · exact returns_ok _
  · exact returns_ok _

theorem idle_ok (h : s.Sound) (outside : s.inHandler = false) (done : s.idle handlers = .ok s') : s.After s' ∧ s'.NothingDue := by
  obtain ⟨⟨b, t⟩, check, done⟩ := bind_ok done
  have idling : ({ s with status := .idleMode } : Interrupts).Sound := h.changed _ rfl
  obtain ⟨⟨sound, outside', clock⟩, nothing⟩ := checkIfDue_ok idling outside check
  dsimp only at done
  split at done
  · cases done
    exact ⟨⟨sound.changed _ rfl, outside', clock⟩, nothing⟩
  · cases done

/-- **The rule of a step.** -/
theorem step_ok (h : s.Sound) (outside : s.inHandler = false) {call : Call} (done : s.step call = .ok s') : s.After s' := by
  cases call with
  | schedule toCall fromNow type =>
    obtain ⟨x, new, later, rfl⟩ := schedule_ok done
    exact ⟨h.inserted new later, outside, le_rfl⟩
  | oneTick handlers => exact (oneTick_ok h outside done).1
  | idle handlers => exact (idle_ok h outside done).1
  | setLevel handlers now =>
    simp only [step, setLevel] at done
    split_ifs at done
    · have after := (oneTick_ok (h.changeLevel now) outside done).1
      exact ⟨after.sound, after.outside, after.clock⟩
    · cases done
      exact ⟨h.changeLevel now, outside, le_rfl⟩
  | setStatus st =>
    cases done
    exact ⟨h.changed _ rfl, outside, le_rfl⟩

theorem sound_of_reach (reach : Reach interrupts (fun _ _ => True) s) : s.Sound ∧ s.inHandler = false := by
  refine Reach.invariant (fun s => s.Sound ∧ s.inHandler = false) ?_ ?_ reach
  · rintro s rfl
    exact ⟨sound_initial, rfl⟩
  · intro s call s' ⟨sound, outside⟩ _ done
    have after := step_ok sound outside done
    exact ⟨after.sound, after.outside⟩

/-- `CheckIfDue(TRUE)` calls a handler if an interrupt is pending. -/
theorem checkIfDue_fires {next : PendingInterrupt} {pending : List PendingInterrupt} (front : s.pending = next :: pending) {b : Bool}
    (done : s.checkIfDue handlers true = .ok (b, s')) : b = true := by
  unfold checkIfDue at done
  simp only [front] at done
  split_ifs at done with off later stay
  · cases stay
  · obtain ⟨wait, -, done⟩ := bind_ok done
    obtain ⟨idleTicks, -, done⟩ := bind_ok done
    exact fire_true done
  · exact fire_true done

theorem idle_returns (h : s.Sound) (off : s.level = .intOff) (busy : s.pending ≠ []) (allowed : handlers.Allowed) :
    Returns (s.idle handlers) := by
  obtain ⟨next, pending, front⟩ := List.exists_cons_of_ne_nil busy
  have check := checkIfDue_returns (h.changed { s.toInterrupt with status := .idleMode } rfl) off allowed true
  apply check.bind
  rintro ⟨b, t⟩ done
  have fires : b = true := checkIfDue_fires (s := { s with status := .idleMode }) front done
  subst fires
  exact returns_ok _

/-- The calls that neither fail an assertion nor halt the machine. -/
def Call.Allowed (s : Interrupts) : Call → Prop
  | .schedule _ fromNow _ => 0 < fromNow
  | .oneTick handlers => handlers.Allowed
  | .idle handlers => s.level = .intOff ∧ s.pending ≠ [] ∧ handlers.Allowed
  | .setLevel handlers _ => handlers.Allowed
  | .setStatus _ => True

theorem step_returns (h : s.Sound) (outside : s.inHandler = false) {call : Call} (allowed : call.Allowed s) :
    Returns (s.step call) := by
  cases call with
  | schedule toCall fromNow type => exact schedule_returns h allowed
  | oneTick handlers => exact oneTick_returns h allowed
  | idle handlers =>
    obtain ⟨off, busy, allowed⟩ := allowed
    exact idle_returns h off busy allowed
  | setLevel handlers now =>
    simp only [step, setLevel]
    split_ifs with inside
    · rw [outside] at inside
      exact absurd inside.2 Bool.false_ne_true
    · exact oneTick_returns (h.changeLevel now) allowed
    · exact returns_ok _
  | setStatus st => exact returns_ok _

/-- No two of the interrupts called are the same object, and none of them is pending. -/
theorem Sound.once (h : s.Sound) : ((s.called.map Prod.fst ++ s.pending).map PendingInterrupt.address).Nodup := by
  rw [(h.kept.map _).nodup_iff, h.addresses]
  exact List.nodup_range

/-- **The interrupt queue is in time.** Handlers are called in the order of the times and not before, no
interrupt is called twice and none is lost, nothing is due behind `CheckIfDue(FALSE)`, and the clocks agree. A
call ends as long as the sums fit in an `int`. -/
theorem interrupts_in_time (reach : Reach interrupts (fun _ _ => True) s) :
    (s.called.Pairwise (fun x y => x.1.when ≤ y.1.when) ∧ ∀ c ∈ s.called, c.1.when ≤ c.2) ∧
    ((s.called.map Prod.fst ++ s.pending).map PendingInterrupt.address).Nodup ∧
    (s.called.map Prod.fst ++ s.pending).Perm s.scheduled ∧
    s.stats.totalTicks = s.stats.systemTicks + s.stats.userTicks + s.stats.idleTicks ∧
    (∀ handlers t b s', s.advance = .ok t → (t.changeLevel .intOff).checkIfDue handlers false = .ok (b, s') → s'.NothingDue) ∧
    (∀ handlers s', s.oneTick handlers = .ok s' → s'.NothingDue) ∧
    (∀ call s', s.step call = .ok s' → s.stats.totalTicks ≤ s'.stats.totalTicks) ∧
    ∀ call : Call, call.Allowed s → Returns (s.step call) := by
  obtain ⟨sound, outside⟩ := sound_of_reach reach
  refine ⟨⟨sound.called_sorted, fun c mem => (sound.on_time c mem).1⟩, sound.once, sound.kept, sound.accounted, ?_, ?_, ?_, ?_⟩
  · intro handlers t b s' tick check
    obtain ⟨ticked, same, -⟩ := advance_ok sound tick
    have out : t.inHandler = false := (congrArg Interrupt.inHandler same).trans outside
    exact (checkIfDue_ok (ticked.changeLevel .intOff) out check).2
  · intro handlers s' done
    exact (oneTick_ok sound outside done).2
  · intro call s' done
    exact (step_ok sound outside done).clock
  · intro call allowed
    exact step_returns sound outside allowed

/-- A timer with an interrupt after 5 ticks, whose handler asks for another after 100, and the clock at
which it is called in the idle loop. -/
def timed : Interrupts where
  level := .intOff
  pending := [⟨2, 0, 210, .timerInt⟩]
  inHandler := false
  yieldOnReturn := false
  status := .systemMode
  stats := ⟨110, 100, 10, 0⟩
  scheduled := [⟨0, 0, 5, .timerInt⟩, ⟨1, 0, 110, .timerInt⟩, ⟨2, 0, 210, .timerInt⟩]
  called := [(⟨0, 0, 5, .timerInt⟩, 10), (⟨1, 0, 110, .timerInt⟩, 110)]

theorem reach_timed : Reach interrupts (fun _ _ => True) timed := by
  let handlers : Handlers := fun _ _ => [.schedule 0 100 .timerInt]
  have start : Reach interrupts (fun _ _ => True) initial := .init rfl
  refine start.run (fun s call => (s.step call).toOption) (fun s call s' done => ?_)
    [.schedule 0 5 .timerInt, .setLevel handlers .intOn, .setLevel handlers .intOff, .idle handlers] rfl
  change s.step call = .ok s'
  revert done
  cases s.step call with
  | error e => exact fun done => nomatch done
  | ok t => exact fun done => congrArg Except.ok (Option.some.inj done)

/-- The handler was called twice, and the third interrupt is pending. -/
theorem interrupts_in_time_timed : timed.called.length = 2 ∧ timed.pending.length = 1 ∧
    ((timed.called.map Prod.fst ++ timed.pending).map PendingInterrupt.address).Nodup :=
  ⟨rfl, rfl, (interrupts_in_time reach_timed).2.1⟩

end Interrupts
end Nachos.Mp3
