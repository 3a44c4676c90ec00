import Nachos.Base.Transition

/-!
# Runs as clients see them

A trace is the list of calls that a run has answered, with the answers. One system refines another when
every trace of the first is a trace of the second: a relation between their states that each step keeps shows it.
-/

namespace Transition

variable {σ ν κ μ ρ : Type} {step : σ → κ → ρ → σ → Prop} {allowed : σ → κ → Prop} {s s₀ : σ} {log : List (κ × ρ)}

/-- The calls of a run with their answers, the first one first. -/
inductive Trace (step : σ → κ → ρ → σ → Prop) (allowed : σ → κ → Prop) (s₀ : σ) : List (κ × ρ) → σ → Prop where
  | nil : Trace step allowed s₀ [] s₀
  | snoc {log : List (κ × ρ)} {s s' : σ} {c : κ} {a : ρ} :
      Trace step allowed s₀ log s → allowed s c → step s c a s' → Trace step allowed s₀ (log ++ [(c, a)]) s'

namespace Trace

/-- The invariant rule. -/
theorem invariant (Inv : σ → Prop) (start : Inv s₀) (kept : ∀ s c a s', Inv s → allowed s c → step s c a s' → Inv s')
    (run : Trace step allowed s₀ log s) : Inv s := by
  induction run with
  | nil => exact start
  | snoc _ may next ih => exact kept _ _ _ _ ih may next

/-- **The rule for refinement.** Calls are renamed, answers are the same. -/
theorem refine {step' : ν → μ → ρ → ν → Prop} {u₀ : ν} (permitted : ν → μ → Prop) (R : σ → ν → Prop) (call : κ → μ)
    (start : R s₀ u₀) (forward : ∀ s c a s' u, R s u → allowed s c → step s c a s' →
      permitted u (call c) ∧ ∃ u', step' u (call c) a u' ∧ R s' u')
    (run : Trace step allowed s₀ log s) : ∃ u, Trace step' permitted u₀ (log.map (Prod.map call id)) u ∧ R s u := by
  induction run with
  | nil => exact ⟨u₀, .nil, start⟩
  | snoc _ may next ih =>
    obtain ⟨u, run', rel⟩ := ih
    obtain ⟨may', u', next', rel'⟩ := forward _ _ _ _ u rel may next
    refine ⟨u', ?_, rel'⟩
    rw [List.map_append]
    exact run'.snoc may' next'

end Trace

end Transition
