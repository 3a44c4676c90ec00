import Mathlib.Data.List.Induction
import Nachos.Base.Transition

/-!
# Components of an interleaving

The steps of a system belong to components or to none. When a step of a component moves its own
view by a private step and no step moves the view of another, every interleaving shows each
component a private run over its own events: what the others do, and when, makes no difference.
-/

namespace Transition

variable {σ ι τ ε ν : Type} {T : System σ ι} {allowed : σ → ι → Prop} {emit : σ → ι → Option (τ × ε)}

/-- A run whose steps are all admitted, with the events of the components in order. -/
inductive Run (T : System σ ι) (allowed : σ → ι → Prop) (emit : σ → ι → Option (τ × ε)) : σ → List (τ × ε) → σ → Prop where
  | refl (s : σ) : Run T allowed emit s [] s
  | step {s s' s'' : σ} {a : ι} {log : List (τ × ε)} : Run T allowed emit s log s' → allowed s' a → T.step s' a s'' →
      Run T allowed emit s (log ++ (emit s' a).toList) s''

/-- A list of admitted steps of a system that is given by a function. -/
theorem Run.of_events {s s' : σ} (exec : σ → ι → Option σ) (steps : ∀ s a s', exec s a = some s' → T.step s a s') (events : List ι)
    (admitted : ∀ s, ∀ a ∈ events, allowed s a) (done : events.foldlM exec s = some s') : ∃ log, Run T allowed emit s log s' := by
  induction events using List.reverseRecOn generalizing s' with
  | nil =>
    obtain rfl := Option.some.inj done
    exact ⟨[], .refl s⟩
  | append_singleton events e ih =>
    rw [List.foldlM_append] at done
    obtain ⟨before, earlier, last⟩ := Option.bind_eq_some_iff.1 done
    obtain ⟨log, run⟩ := ih (fun s a mem => admitted s a (List.mem_append_left _ mem)) earlier
    have last : exec before e = some s' := by simpa using last
    exact ⟨_, run.step (admitted before e (List.mem_append_right _ List.mem_cons_self)) (steps _ _ _ last)⟩

/-- The events of one component. -/
def mine [DecidableEq τ] (t : τ) (log : List (τ × ε)) : List ε := (log.filter fun e => e.1 = t).map Prod.snd

section mine

variable [DecidableEq τ] {t u : τ} {e : ε} {log : List (τ × ε)}

@[simp] theorem mine_nil : mine t ([] : List (τ × ε)) = [] := rfl

theorem mine_append (log log' : List (τ × ε)) : mine t (log ++ log') = mine t log ++ mine t log' := by
  rw [mine, List.filter_append, List.map_append]
  rfl

theorem mine_self : mine t [(t, e)] = [e] := by
  simp [mine]

theorem mine_of_ne (ne : u ≠ t) : mine t [(u, e)] = [] := by
  simp [mine, ne]

end mine

/-- The views of the components evolve on their own while `Inv` holds. -/
structure Components (T : System σ ι) (allowed : σ → ι → Prop) (emit : σ → ι → Option (τ × ε)) (Inv : σ → Prop)
    (view : σ → τ → ν) (own : ν → ε → Option ν) : Prop where
  kept : ∀ s a s', Inv s → allowed s a → T.step s a s' → Inv s'
  owner : ∀ s a s' t e, Inv s → allowed s a → T.step s a s' → emit s a = some (t, e) → own (view s t) e = some (view s' t)
  others : ∀ s a s' t, Inv s → allowed s a → T.step s a s' → (∀ e, emit s a ≠ some (t, e)) → view s' t = view s t

namespace Components

variable {Inv : σ → Prop} {view : σ → τ → ν} {own : ν → ε → Option ν} {s s' : σ} {log : List (τ × ε)}

theorem invariant (h : Components T allowed emit Inv view own) (run : Run T allowed emit s log s') (inv : Inv s) : Inv s' := by
  induction run with
  | refl => exact inv
  | step _ admitted next ih => exact h.kept _ _ _ ih admitted next

/-- **The view of a component after a run** is that of its private run over its own events. -/
theorem private_run [DecidableEq τ] (h : Components T allowed emit Inv view own) (run : Run T allowed emit s log s') (inv : Inv s)
    (t : τ) : (mine t log).foldlM own (view s t) = some (view s' t) := by
  induction run with
  | refl => rfl
  | @step s₁ s₂ a log before admitted next ih =>
    have here := h.invariant before inv
    have still (other : ∀ e, emit s₁ a ≠ some (t, e)) : (mine t log).foldlM own (view s t) = some (view s₂ t) := by
      rw [h.others _ _ _ _ here admitted next other]
      exact ih
    rw [mine_append, List.foldlM_append]
    cases emitted : emit s₁ a with
    | none =>
      have quiet := still fun e some => by
        rw [emitted] at some
        cases some
      rw [quiet]
      rfl
    | some r =>
      obtain ⟨u, e⟩ := r
      rw [Option.toList_some]
      by_cases same : u = t
      · subst same
        rw [ih, mine_self]
        change (own (view s₁ u) e).bind _ = _
        rw [h.owner _ _ _ _ _ here admitted next emitted]
        rfl
      · have quiet := still fun e' some => by
          rw [emitted] at some
          exact same (Prod.mk.inj (Option.some.inj some)).1
        rw [quiet, mine_of_ne same]
        rfl

end Components

end Transition
