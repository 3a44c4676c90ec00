import Nachos.Mp1.Console

/-!
# Calls of the console output are atomic

The thread inside the lock, the device and the completion semaphore move together: the device
is busy exactly while an interrupt is pending, and the semaphore is up exactly while its
`V` has not been consumed. No other thread is near the device, so that a call's characters
stand together.
-/

namespace Nachos.Mp1
open Transition

namespace Place

/-- The call that a thread inside the lock serves, and how many of its characters are written. -/
def progress : Place → Option (Call × ℕ)
  | .outside | .acquire _ => none
  | .acquired c => some (c, 0)
  | .write c idx => some (c, idx)
  | .setBusy c idx | .schedule c idx => some (c, idx + 1)
  | .wait c idx => some (c, idx)
  | .release c | .signal c => some (c, c.text.length)

def Bounded : Place → Prop
  | .write c idx | .setBusy c idx | .schedule c idx => idx < c.text.length
  | .wait c idx => 0 < idx ∧ idx ≤ c.text.length
  | _ => True

/-- The places between the write of `lockHolder` in `Acquire` and that in `Release`. -/
def Holding : Place → Prop
  | .write _ _ | .setBusy _ _ | .schedule _ _ | .wait _ _ | .release _ => True
  | _ => False

end Place

namespace Console

variable {τ : Type} [DecidableEq τ] {s s' : Console τ} {t u : τ} {p : Place}

/-- The device and its semaphore, by the place of the thread inside the lock. -/
def Device (s : Console τ) : Place → Prop
  | .schedule _ _ => s.putBusy = true ∧ s.pending = 0 ∧ s.waitFor.value = 0
  | .wait _ _ => (s.putBusy = true ∧ s.pending = 1 ∧ s.waitFor.value = 0) ∨
      (s.putBusy = false ∧ s.pending = 0 ∧ s.waitFor.value = 1)
  | _ => s.putBusy = false ∧ s.pending = 0 ∧ s.waitFor.value = 0

/-- No thread is inside the lock. -/
structure Free (s : Console τ) : Prop where
  nobody : ∀ u, (s.place u).progress = none
  value : s.lock.value = 1
  device : s.Device .outside
  text : s.written = s.calls.flatMap Call.text

/-- Thread `t` is inside the lock. -/
structure Held (t : τ) (s : Console τ) : Prop where
  others : ∀ u, u ≠ t → (s.place u).progress = none
  value : s.lock.value = 0
  device : s.Device (s.place t)
  bounded : (s.place t).Bounded
  holder : (s.place t).Holding → s.lockHolder = some t
  text : ∃ c n before, (s.place t).progress = some (c, n) ∧ s.calls = before ++ [c] ∧
    s.written = before.flatMap Call.text ++ c.text.take n

def Sound (s : Console τ) : Prop := s.Free ∨ ∃ t, s.Held t

@[simp] theorem setPlace_self : (s.setPlace t p).place t = p := Function.update_self ..

theorem setPlace_ne (ne : u ≠ t) : (s.setPlace t p).place u = s.place u := Function.update_of_ne ne ..

/-- A thread moves that is not inside the lock. -/
theorem Free.setPlace (h : s.Free) (out : p.progress = none) : (s.setPlace u p).Free := by
  refine ⟨fun v => ?_, h.value, h.device, h.text⟩
  rcases eq_or_ne v u with rfl | ne
  · rwa [setPlace_self]
  · rw [setPlace_ne ne]
    exact h.nobody v

theorem Held.setPlace (h : s.Held t) (ne : u ≠ t) (out : p.progress = none) : (s.setPlace u p).Held t := by
  have same : (s.setPlace u p).place t = s.place t := setPlace_ne ne.symm
  refine ⟨fun v hv => ?_, h.value, ?_, ?_, ?_, ?_⟩
  · rcases eq_or_ne v u with rfl | other
    · rwa [setPlace_self]
    · rw [setPlace_ne other]
      exact h.others v hv
  · rw [same]
    exact h.device
  · rw [same]
    exact h.bounded
  · rw [same]
    exact h.holder
  · rw [same]
    exact h.text

/-- The thread inside the lock moves on. -/
theorem Held.move {c : Call} {n : ℕ} {before : List Call} (others : ∀ u, u ≠ t → (s.place u).progress = none)
    (place : ∀ u, s'.place u = (s.setPlace t p).place u) (value : s'.lock.value = 0) (device : s'.Device p)
    (bounded : p.Bounded) (holder : p.Holding → s'.lockHolder = some t) (progress : p.progress = some (c, n))
    (calls : s'.calls = before ++ [c]) (written : s'.written = before.flatMap Call.text ++ c.text.take n) : s'.Held t := by
  have here : s'.place t = p := by rw [place, setPlace_self]
  refine ⟨fun u ne => ?_, value, ?_, ?_, ?_, c, n, before, ?_, calls, written⟩
  · rw [place, setPlace_ne ne]
    exact others u ne
  · rwa [here]
  · rwa [here]
  · rwa [here]
  · rwa [here]

theorem Free.run (h : s.Free) (e : s.run t = some s') : s'.Sound := by
  have nobody := h.nobody t
  rw [Console.run] at e
  cases place : s.place t with
  | acquire c =>
    have up : ¬ s.lock.value = 0 := by
      rw [h.value]
      decide
    simp only [place, if_neg up, Option.ite_none_left_eq_some, Option.some.injEq] at e
    obtain ⟨-, rfl⟩ := e
    refine .inr ⟨t, .move (p := .acquired c) (fun u _ => h.nobody u) (fun _ => rfl) ?_ h.device trivial False.elim rfl rfl ?_⟩
    · simp [h.value]
    · rw [List.take_zero, List.append_nil]
      exact h.text
  | outside =>
    simp only [place, reduceCtorEq] at e
  | acquired _ | write _ _ | setBusy _ _ | schedule _ _ | wait _ _ | release _ | signal _ =>
    rw [place] at nobody
    cases nobody

/-- The thread inside the lock is alone: another one can only fall asleep. -/
theorem Held.run_other (h : s.Held t) (ne : u ≠ t) (e : s.run u = some s') : s'.Held t := by
  have outside := h.others u ne
  rw [Console.run] at e
  cases place : s.place u with
  | acquire c =>
    simp only [place, h.value, if_true, Option.ite_none_left_eq_some, Option.some.injEq] at e
    obtain ⟨-, rfl⟩ := e
    exact { h with }
  | outside =>
    simp only [place, reduceCtorEq] at e
  | acquired _ | write _ _ | setBusy _ _ | schedule _ _ | wait _ _ | release _ | signal _ =>
    rw [place] at outside
    cases outside

/-- In `waitFor->P()` a thread falls asleep, or goes on to the next character or to the end. -/
theorem Held.run_wait (h : s.Held t) {c : Call} {idx : ℕ} (place : s.place t = .wait c idx) (e : s.run t = some s') :
    s'.Held t := by
  obtain ⟨c', n, before, progress, calls, written⟩ := h.text
  have device := h.device
  have bounded := h.bounded
  have holder := h.holder
  rw [Console.run] at e
  rw [place] at device bounded holder
  simp only [place, Option.ite_none_left_eq_some, Place.progress, Option.some.injEq, Prod.mk.injEq] at e progress
  obtain ⟨-, e⟩ := e
  split at e
  · obtain rfl := Option.some.inj e
    exact { h with }
  · rename_i up
    obtain rfl := Option.some.inj e
    obtain ⟨rfl, rfl⟩ := progress
    obtain ⟨idle, none, one⟩ := device.resolve_left fun busy => up busy.2.2
    have consumed : s.waitFor.take.value = 0 := by rw [Semaphore.take_value, one, Int.sub_self]
    cases again : c.more idx with
    | true =>
      have less := (Call.more_iff bounded.1 bounded.2).1 again
      exact .move (p := .write c idx) h.others (fun _ => rfl) h.value ⟨idle, none, consumed⟩ less holder rfl calls written
    | false =>
      have last : idx = c.text.length := by
        have stop := (Call.more_iff bounded.1 bounded.2).not.1 (by simp [again])
        have most : idx ≤ c.text.length := bounded.2
        omega
      rw [last] at written
      exact .move (p := .release c) h.others (fun _ => rfl) h.value ⟨idle, none, consumed⟩ trivial holder rfl calls written

theorem Held.run (h : s.Held t) (e : s.run t = some s') : s'.Sound := by
  obtain ⟨c, n, before, progress, calls, written⟩ := h.text
  have others := h.others
  have device := h.device
  have bounded := h.bounded
  have holder := h.holder
  cases place : s.place t with
  | outside | acquire _ =>
    rw [place] at progress
    cases progress
  | acquired c =>
    simp only [Console.run, place, Option.some.injEq, Place.progress, Prod.mk.injEq] at e progress
    rw [place] at device
    subst e
    obtain ⟨rfl, rfl⟩ := progress
    have some := List.length_pos_iff.2 c.text_ne_nil
    exact .inr ⟨t, .move (p := .write c 0) others (fun _ => rfl) h.value device some (fun _ => rfl) rfl calls written⟩
  | write c idx =>
    simp only [Console.run, place, Option.some.injEq, Place.progress, Prod.mk.injEq, Option.ite_none_left_eq_some] at e progress
    rw [place] at device bounded holder
    obtain ⟨-, rfl⟩ := e
    obtain ⟨rfl, rfl⟩ := progress
    refine .inr ⟨t, .move (p := .setBusy c idx) others (fun _ => rfl) h.value device bounded holder rfl calls ?_⟩
    simp only [written, Call.char_eq bounded, List.append_assoc]
  | setBusy c idx =>
    simp only [Console.run, place, Option.some.injEq, Place.progress, Prod.mk.injEq] at e progress
    rw [place] at device bounded holder
    subst e
    obtain ⟨rfl, rfl⟩ := progress
    exact .inr ⟨t, .move (p := .schedule c idx) others (fun _ => rfl) h.value ⟨rfl, device.2⟩ bounded holder rfl calls written⟩
  | schedule c idx =>
    simp only [Console.run, place, Option.some.injEq, Place.progress, Prod.mk.injEq] at e progress
    rw [place] at device bounded holder
    subst e
    obtain ⟨rfl, rfl⟩ := progress
    obtain ⟨busy, none, down⟩ := device
    refine .inr ⟨t, .move (p := .wait c (idx + 1)) others (fun _ => rfl) h.value (.inl ⟨busy, ?_, down⟩)
      ⟨Nat.succ_pos idx, bounded⟩ holder rfl calls written⟩
    simp only [none]
  | wait c idx => exact .inr ⟨t, h.run_wait place e⟩
  | release c =>
    simp only [Console.run, place, Option.ite_none_right_eq_some, Option.some.injEq, Place.progress, Prod.mk.injEq] at e progress
    rw [place] at device
    obtain ⟨-, rfl⟩ := e
    obtain ⟨rfl, rfl⟩ := progress
    exact .inr ⟨t, .move (p := .signal c) others (fun _ => rfl) h.value device trivial False.elim rfl calls written⟩
  | signal c =>
    simp only [Console.run, place, Option.some.injEq, Place.progress, Prod.mk.injEq] at e progress
    rw [place] at device
    subst e
    obtain ⟨rfl, rfl⟩ := progress
    refine .inl ⟨fun u => ?_, ?_, device, ?_⟩
    · rcases eq_or_ne u t with rfl | ne
      · simp [Place.progress]
      · exact (congrArg Place.progress (setPlace_ne ne)).trans (others u ne)
    · simp [h.value]
    · change s.written = s.calls.flatMap Call.text
      rw [written, calls, List.take_length, List.flatMap_append, List.flatMap_singleton]

/-- The console-write interrupt comes while the thread inside the lock waits for it. -/
theorem Held.callBack (h : s.Held t) (e : s.callBack = some s') : s'.Held t := by
  obtain ⟨c, n, before, progress, calls, written⟩ := h.text
  have device := h.device
  have bounded := h.bounded
  have holder := h.holder
  rw [Console.callBack, Option.ite_none_left_eq_some, Option.some.injEq] at e
  obtain ⟨some, rfl⟩ := e
  cases place : s.place t with
  | wait c idx =>
    rw [place] at device progress bounded holder
    rcases device with ⟨-, one, down⟩ | ⟨-, none, -⟩
    · refine .move (p := .wait c idx) h.others (fun u => ?_) h.value (.inr ⟨rfl, ?_, ?_⟩) bounded holder progress calls written
      · rcases eq_or_ne u t with rfl | ne
        · rw [setPlace_self, place]
        · rw [setPlace_ne ne]
      · simp only [one]
      · simp only [Semaphore.V_value, down, Int.zero_add]
    · exact absurd none some
  | outside | acquire _ | acquired _ | write _ _ | setBusy _ _ | schedule _ _ | release _ | signal _ =>
    rw [place] at device
    exact absurd device.2.1 some

theorem Sound.step {event : Event τ} (h : s.Sound) (e : s.step event = some s') : s'.Sound := by
  cases event with
  | call t c =>
    rw [Console.step, Option.ite_none_right_eq_some, Option.some.injEq] at e
    obtain ⟨outside, rfl⟩ := e
    rcases h with free | ⟨u, held⟩
    · exact .inl (free.setPlace rfl)
    · refine .inr ⟨u, held.setPlace ?_ rfl⟩
      rintro rfl
      obtain ⟨c, n, before, progress, -⟩ := held.text
      rw [outside] at progress
      cases progress
  | run t =>
    rcases h with free | ⟨u, held⟩
    · exact free.run e
    · rcases eq_or_ne t u with rfl | ne
      · exact held.run e
      · exact .inr ⟨u, held.run_other ne e⟩
  | interrupt =>
    rcases h with free | ⟨u, held⟩
    · rw [Console.step, Console.callBack, if_pos free.device.2.1] at e
      cases e
    · exact .inr ⟨u, held.callBack e⟩

theorem Sound.of_reach (h : Reach (console τ) (fun _ _ => True) s) : s.Sound := by
  refine h.invariant _ ?_ fun _ _ _ sound _ e => sound.step e
  rintro _ rfl
  exact .inl ⟨fun _ => rfl, rfl, ⟨rfl, rfl, rfl⟩, rfl⟩

/-- **Console output is atomic per call.** No assertion fails, of the device or of the lock, and
what is written are the texts of the calls in the order in which they took the lock, the last
one as far as the thread inside the lock has come. -/
theorem console_atomic (h : Reach (console τ) (fun _ _ => True) s) :
    (∀ t c idx, s.place t = .write c idx → s.putBusy = false) ∧
      (∀ t c, s.place t = .release c → s.lockHolder = some t) ∧
      (((∀ t, (s.place t).progress = none) ∧ s.written = s.calls.flatMap Call.text) ∨
        ∃ t c n before, (s.place t).progress = some (c, n) ∧ (∀ u, u ≠ t → (s.place u).progress = none) ∧
          s.calls = before ++ [c] ∧ s.written = before.flatMap Call.text ++ c.text.take n) := by
  rcases Sound.of_reach h with free | ⟨t, held⟩
  · have nobody (t : τ) (p : Place) (at_p : s.place t = p) (inside : p.progress ≠ none) : False :=
      inside (at_p ▸ free.nobody t)
    refine ⟨fun t c idx at_t => (nobody t _ at_t nofun).elim, fun t c at_t => (nobody t _ at_t nofun).elim, .inl ?_⟩
    exact ⟨free.nobody, free.text⟩
  · have inside (u : τ) (p : Place) (at_p : s.place u = p) (some : p.progress ≠ none) : u = t := by
      by_contra ne
      exact some (at_p ▸ held.others u ne)
    refine ⟨fun u c idx at_u => ?_, fun u c at_u => ?_, .inr ?_⟩
    · obtain rfl := inside u _ at_u nofun
      have device := held.device
      rw [at_u] at device
      exact device.1
    · obtain rfl := inside u _ at_u nofun
      have holder := held.holder
      rw [at_u] at holder
      exact holder trivial
    · obtain ⟨c, n, before, progress, calls, written⟩ := held.text
      exact ⟨t, c, n, before, progress, held.others, calls, written⟩

/-- A call that starts while another one has written half its text waits for it. -/
theorem console_atomic_waiting : ∃ s : Console Bool, Reach (console Bool) (fun _ _ => True) s ∧
    s.written = ['4', '2', '\n', 'x'] ∧
    (∀ t c idx, s.place t = .write c idx → s.putBusy = false) ∧
    (∀ t c, s.place t = .release c → s.lockHolder = some t) ∧
    (((∀ t, (s.place t).progress = none) ∧ s.written = s.calls.flatMap Call.text) ∨
      ∃ t c n before, (s.place t).progress = some (c, n) ∧ (∀ u, u ≠ t → (s.place u).progress = none) ∧
        s.calls = before ++ [c] ∧ s.written = before.flatMap Call.text ++ c.text.take n) := by
  have start : Reach (console Bool) (fun _ _ => True) .initial := .init rfl
  obtain ⟨s, reach, written⟩ : ∃ s, Reach (console Bool) (fun _ _ => True) s ∧ s.written = ['4', '2', '\n', 'x'] :=
    ⟨_, start.run step (fun _ _ _ e => e) [.call true (.putInt 42), .run true, .run true, .run true,
      .call false (.putChar 'x'), .run false, .run true, .run true, .run true, .interrupt,
      .run true, .run true, .run true, .run true, .interrupt, .run true, .run true, .run true, .run true, .interrupt,
      .run true, .run true, .run true, .run false, .run false, .run false] rfl, rfl⟩
  exact ⟨s, reach, written, console_atomic reach⟩

end Console

end Nachos.Mp1
