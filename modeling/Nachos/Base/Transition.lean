import Mathlib.Logic.Relation
import Mathlib.Tactic.Common

/-!
# Labelled transition systems under a policy

A system has initial states and labelled steps. `Reach T allowed` holds of the states of
the runs all of whose steps the policy `allowed` admits, so that one system serves
statements about all runs and statements about the runs of a restricted client.
-/

namespace Transition

/-- Initial states and labelled steps. -/
structure System (σ ι : Type) where
  init : σ → Prop
  step : σ → ι → σ → Prop

variable {σ ι : Type} {T : System σ ι} {allowed : σ → ι → Prop}

/-- The states of the runs whose steps are all admitted by `allowed`. -/
inductive Reach (T : System σ ι) (allowed : σ → ι → Prop) : σ → Prop where
  | init {s : σ} : T.init s → Reach T allowed s
  | step {s s' : σ} {a : ι} : Reach T allowed s → allowed s a → T.step s a s' → Reach T allowed s'

/-- **The invariant rule.** -/
theorem Reach.invariant (Inv : σ → Prop) (init : ∀ s, T.init s → Inv s)
    (step : ∀ s a s', Inv s → allowed s a → T.step s a s' → Inv s') {s : σ} (h : Reach T allowed s) : Inv s := by
  induction h with
  | init h => exact init _ h
  | step _ ha hs ih => exact step _ _ _ ih ha hs

/-- A stricter policy reaches fewer states, once the implication between the policies
is shown at the states it reaches. -/
theorem Reach.mono {strict : σ → ι → Prop} (le : ∀ s a, Reach T allowed s → strict s a → allowed s a) {s : σ}
    (h : Reach T strict s) : Reach T allowed s := by
  induction h with
  | init h => exact .init h
  | step _ ha hs ih => exact .step ih (le _ _ ih ha) hs

/-- One admitted step. -/
def System.Next (T : System σ ι) (allowed : σ → ι → Prop) (s s' : σ) : Prop := ∃ a, allowed s a ∧ T.step s a s'

/-- A list of admitted steps of a system that is given by a function. -/
theorem Reach.events {s s' : σ} (exec : σ → ι → Option σ) (h : Reach T allowed s)
    (steps : ∀ s a s', exec s a = some s' → T.step s a s') (events : List ι) (admitted : ∀ s, ∀ a ∈ events, allowed s a)
    (done : events.foldlM exec s = some s') : Reach T allowed s' := by
  induction events generalizing s with
  | nil =>
    obtain rfl := Option.some.inj done
    exact h
  | cons e events ih =>
    rw [List.foldlM_cons] at done
    obtain ⟨next, first, others⟩ := Option.bind_eq_some_iff.1 done
    have now := h.step (admitted s e List.mem_cons_self) (steps _ _ _ first)
    exact ih now (fun s a mem => admitted s a (List.mem_cons_of_mem e mem)) others

/-- A step that is taken if a test allows it. -/
def tested (exec : σ → ι → Option σ) (test : σ → ι → Bool) (s : σ) (a : ι) : Option σ := if test s a then exec s a else none

/-- A list of steps each of which passes a test for being admitted. -/
theorem Reach.checked {s s' : σ} (exec : σ → ι → Option σ) (test : σ → ι → Bool) (h : Reach T allowed s)
    (steps : ∀ s a s', exec s a = some s' → T.step s a s') (admits : ∀ s a, test s a = true → allowed s a) (events : List ι)
    (done : events.foldlM (tested exec test) s = some s') : Reach T allowed s' := by
  induction events generalizing s with
  | nil =>
    obtain rfl := Option.some.inj done
    exact h
  | cons e events ih =>
    rw [List.foldlM_cons] at done
    obtain ⟨next, first, others⟩ := Option.bind_eq_some_iff.1 done
    obtain ⟨passes, first⟩ := Option.ite_none_right_eq_some.1 first
    exact ih (h.step (admits _ _ passes) (steps _ _ _ first)) others

/-- A list of steps, where all are admitted. -/
theorem Reach.run {s s' : σ} (exec : σ → ι → Option σ) (h : Reach T (fun _ _ => True) s)
    (steps : ∀ s a s', exec s a = some s' → T.step s a s') (events : List ι)
    (done : events.foldlM exec s = some s') : Reach T (fun _ _ => True) s' :=
  h.events exec steps events (fun _ _ _ => trivial) done

/-- Whatever the steps of the others do in between, step `a` can be taken, and then `Q` holds of it. -/
def System.Ensures (T : System σ ι) (others : σ → ι → Prop) (a : ι) (s : σ) (Q : σ → σ → Prop) : Prop :=
  ∀ s₁, Relation.ReflTransGen (T.Next others) s s₁ → ∃ s₂, T.step s₁ a s₂ ∧ Q s₁ s₂

/-- **The rule for interference.** What the others keep is there when the step is taken. -/
theorem System.ensures_of_stable {others : σ → ι → Prop} {a : ι} {Q : σ → σ → Prop} {s : σ} (Kept : σ → Prop)
    (now : Kept s) (stable : ∀ s b s', Kept s → others s b → T.step s b s' → Kept s')
    (step : ∀ s, Kept s → ∃ s', T.step s a s' ∧ Q s s') : T.Ensures others a s Q := by
  intro s₁ run
  apply step
  induction run with
  | refl => exact now
  | tail _ next ih =>
    obtain ⟨b, admitted, next⟩ := next
    exact stable _ b _ ih admitted next

/-! ## Steps that can fail -/

/-- A computation that ends well has ended well in each of its parts. -/
theorem bind_ok {ε β γ : Type} {m : Except ε β} {f : β → Except ε γ} {c : γ} (done : m >>= f = .ok c) :
    ∃ b, m = .ok b ∧ f b = .ok c := by
  cases m with
  | error e => cases done
  | ok b => exact ⟨b, rfl, done⟩

end Transition
