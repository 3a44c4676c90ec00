import Nachos.Base.Transition

/-!
# Services

A service answers one call after another: the caller moves through places behind a door, and
between its steps the environment moves. A system whose steps are steps of another one, or
none, reaches nothing that the other does not reach; with it what is proved of a service on its own
holds of the service in an interleaving of many callers.
-/

namespace Transition

/-- **The rule for simulation.** Each step of `T` is one of `U`, or leaves its state related as it was. -/
theorem Reach.simulate {σ ι ν μ : Type} {T : System σ ι} {U : System ν μ} {allowed : σ → ι → Prop} {permitted : ν → μ → Prop}
    (R : σ → ν → Prop) (init : ∀ s, T.init s → ∃ u, U.init u ∧ R s u)
    (step : ∀ s a s' u, R s u → allowed s a → T.step s a s' → R s' u ∨ ∃ b u', permitted u b ∧ U.step u b u' ∧ R s' u')
    {s : σ} (h : Reach T allowed s) : ∃ u, Reach U permitted u ∧ R s u := by
  induction h with
  | init first =>
    obtain ⟨u, start, rel⟩ := init _ first
    exact ⟨u, .init start, rel⟩
  | step _ admitted next ih =>
    obtain ⟨u, reach, rel⟩ := ih
    obtain still | ⟨b, u', may, move, rel'⟩ := step _ _ _ u rel admitted next
    · exact ⟨u, reach, still⟩
    · exact ⟨u', reach.step may move, rel'⟩

/-- A service for callers `τ`: a call `κ` begins at its first place and ends with an answer `ρ`; `δ` is the state
behind the door, `ε` are the moves of the environment. -/
structure Service (τ κ π ρ δ ε : Type) where
  start : δ → Prop
  first : κ → π
  run : δ → τ → κ → π → Option (δ × (π ⊕ ρ))
  environment : δ → ε → Option δ

/-- A service at work: who is inside, and what has been answered. -/
structure Serving (τ κ π ρ δ : Type) where
  state : δ
  inside : Option (τ × κ × π)
  served : List (κ × ρ)

inductive ServiceEvent (τ κ ε : Type) where
  | enter (t : τ) (c : κ)
  | run
  | environment (e : ε)

variable {τ κ π ρ δ ε : Type}

namespace Service

/-- The caller inside has moved to a place, or it is done. -/
def moved (u : Serving τ κ π ρ δ) (t : τ) (c : κ) : δ × (π ⊕ ρ) → Serving τ κ π ρ δ
  | (state, .inl p) => ⟨state, some (t, c, p), u.served⟩
  | (state, .inr answer) => ⟨state, none, u.served ++ [(c, answer)]⟩

def step (S : Service τ κ π ρ δ ε) (u : Serving τ κ π ρ δ) : ServiceEvent τ κ ε → Option (Serving τ κ π ρ δ)
  | .enter t c =>
    match u.inside with
    | none => some { u with inside := some (t, c, S.first c) }
    | some _ => none
  | .run =>
    match u.inside with
    | none => none
    | some (t, c, p) => (S.run u.state t c p).map (moved u t c)
  | .environment e => (S.environment u.state e).map fun state => { u with state }

/-- The service without the door. -/
def alone (S : Service τ κ π ρ δ ε) : System (Serving τ κ π ρ δ) (ServiceEvent τ κ ε) where
  init u := S.start u.state ∧ u.inside = none ∧ u.served = []
  step u e u' := S.step u e = some u'

variable {S : Service τ κ π ρ δ ε} {u u' : Serving τ κ π ρ δ}

/-- The calls that come are of a kind. -/
def Enters (legal : κ → Prop) (_ : Serving τ κ π ρ δ) (e : ServiceEvent τ κ ε) : Prop := ∀ t c, e = .enter t c → legal c

/-- The ways a service moves. -/
inductive Stepped (S : Service τ κ π ρ δ ε) (legal : κ → Prop) (u : Serving τ κ π ρ δ) : Serving τ κ π ρ δ → Prop where
  | enter (t : τ) (c : κ) (free : u.inside = none) (comes : legal c) : Stepped S legal u ⟨u.state, some (t, c, S.first c), u.served⟩
  | go {t : τ} {c : κ} {p q : π} {state : δ} (inside : u.inside = some (t, c, p)) (run : S.run u.state t c p = some (state, .inl q)) :
    Stepped S legal u ⟨state, some (t, c, q), u.served⟩
  | done {t : τ} {c : κ} {p : π} {answer : ρ} {state : δ} (inside : u.inside = some (t, c, p))
    (run : S.run u.state t c p = some (state, .inr answer)) : Stepped S legal u ⟨state, none, u.served ++ [(c, answer)]⟩
  | environment (e : ε) {state : δ} (run : S.environment u.state e = some state) : Stepped S legal u ⟨state, u.inside, u.served⟩

theorem stepped {legal : κ → Prop} {e : ServiceEvent τ κ ε} (comes : Enters legal u e) (next : S.step u e = some u') :
    Stepped S legal u u' := by
  cases e with
  | enter t c =>
    simp only [step] at next
    cases free : u.inside with
    | none =>
      simp only [free, Option.some.injEq] at next
      subst next
      exact .enter t c free (comes t c rfl)
    | some x => simp [free] at next
  | run =>
    simp only [step] at next
    cases inside : u.inside with
    | none => simp [inside] at next
    | some x =>
      obtain ⟨t, c, p⟩ := x
      simp only [inside, Option.map_eq_some_iff] at next
      obtain ⟨⟨state, place⟩, run, eq⟩ := next
      subst eq
      cases place with
      | inl q => exact .go inside run
      | inr answer => exact .done inside run
  | environment e =>
    simp only [step, Option.map_eq_some_iff] at next
    obtain ⟨state, run, eq⟩ := next
    subst eq
    exact .environment e run

/-- **The invariant rule for a service.** -/
theorem invariant {legal : κ → Prop} (Inv : Serving τ κ π ρ δ → Prop) (init : ∀ state, S.start state → Inv ⟨state, none, []⟩)
    (step : ∀ u u', Inv u → Stepped S legal u u' → Inv u') (reach : Reach S.alone (Enters legal) u) : Inv u := by
  refine reach.invariant Inv ?_ fun u e u' inv comes next => step u u' inv (stepped comes next)
  rintro ⟨state, inside, served⟩ ⟨start, free, none⟩
  change inside = Option.none at free
  change served = [] at none
  subst free none
  exact init state start

end Service

end Transition
