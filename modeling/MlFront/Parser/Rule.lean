import MlFront.Parser.State

/-!
# Rules

A `Rule` is a step of a parse that takes at least one token whenever it
succeeds. That is what makes loops over rules end. `Shortens` says this of a
step, `Keeps` that a step gives no token back; the lemmas follow the way steps
are put together.
-/

namespace MlFront

/-- The outcome, reached from `state`, is a success only with fewer tokens left. -/
def Outcome.Shortens {α : Type} (outcome : Outcome α) (state : State) : Prop :=
  ∀ value after, outcome = .ok value after → after.rest.length < state.rest.length

/-- The outcome, reached from `state`, is a success only with no more tokens left. -/
def Outcome.Keeps {α : Type} (outcome : Outcome α) (state : State) : Prop :=
  ∀ value after, outcome = .ok value after → after.rest.length ≤ state.rest.length

theorem Outcome.andThen_eq_ok {α β : Type} {outcome : Outcome α} {next : α → State → Outcome β}
    {value : β} {after : State} (h : outcome.andThen next = .ok value after) :
    ∃ a middle, outcome = .ok a middle ∧ next a middle = .ok value after := by
  cases outcome with
  | ok a middle => exact ⟨a, middle, rfl, h⟩
  | error fault middle => cases h

namespace ParseM

/-- The step takes a token whenever it succeeds. -/
def Shortens {α : Type} (step : ParseM α) : Prop :=
  ∀ state, (step.run state).Shortens state

/-- The step gives no token back. -/
def Keeps {α : Type} (step : ParseM α) : Prop :=
  ∀ state, (step.run state).Keeps state

theorem Shortens.keeps {α : Type} {step : ParseM α} (h : step.Shortens) : step.Keeps :=
  fun state value after he => Nat.le_of_lt (h state value after he)

theorem Shortens.bind {α β : Type} {step : ParseM α} {next : α → ParseM β} (hs : step.Shortens)
    (hn : ∀ a, (next a).Keeps) : (step >>= next).Shortens := by
  intro state value after h
  obtain ⟨a, middle, h1, h2⟩ := Outcome.andThen_eq_ok h
  exact Nat.lt_of_le_of_lt (hn a middle value after h2) (hs state a middle h1)

theorem Keeps.bind {α β : Type} {step : ParseM α} {next : α → ParseM β} (hs : step.Keeps)
    (hn : ∀ a, (next a).Keeps) : (step >>= next).Keeps := by
  intro state value after h
  obtain ⟨a, middle, h1, h2⟩ := Outcome.andThen_eq_ok h
  exact Nat.le_trans (hn a middle value after h2) (hs state a middle h1)

theorem Keeps.bind_shortens {α β : Type} {step : ParseM α} {next : α → ParseM β}
    (hs : step.Keeps) (hn : ∀ a, (next a).Shortens) : (step >>= next).Shortens := by
  intro state value after h
  obtain ⟨a, middle, h1, h2⟩ := Outcome.andThen_eq_ok h
  exact Nat.lt_of_lt_of_le (hn a middle value after h2) (hs state a middle h1)

theorem keeps_pure {α : Type} (a : α) : (pure a : ParseM α).Keeps := by
  intro state value after h
  cases h
  exact Nat.le_refl _

theorem shortens_fail {α : Type} (cause : Cause) : (fail cause : ParseM α).Shortens := by
  intro state value after h
  cases h

theorem keeps_currentLine : currentLine.Keeps := by
  intro state value after h
  cases h
  exact Nat.le_refl _

theorem shortens_expectOr (text : String) (fault : State → Fault) :
    (expectOr text fault).Shortens := by
  intro state value after h
  rcases state with ⟨before, _ | ⟨token, rest⟩, nesting⟩
  · cases h
  · simp only [expectOr] at h
    split at h
    · cases h
      simp [State.next]
    · cases h

theorem shortens_expect (text : String) : (expect text).Shortens :=
  shortens_expectOr _ _

theorem keeps_descend : descend.Keeps := by
  intro state value after h
  simp only [descend] at h
  split at h
  · cases h
  · cases h
    exact Nat.le_refl _

theorem keeps_build (node : Node) : (build node).Keeps := by
  intro state value after h
  simp only [build] at h
  split at h
  · cases h
  · cases h
    exact Nat.le_refl _

theorem Shortens.closing {α : Type} {step : ParseM α} (h : step.Shortens) :
    (closing step).Shortens := by
  intro state value after he
  simp only [ParseM.closing] at he
  split at he
  · next hm =>
    have hlt := h state _ _ hm
    cases he
    exact hlt
  · cases he

end ParseM

/-- A step of a parse that takes a token whenever it succeeds. -/
structure Rule (α : Type) where
  step : ParseM α
  shortens : step.Shortens

/-- A rule for the states with fewer than `bound` tokens left. -/
abbrev RuleBelow (bound : Nat) (α : Type) :=
  (state : State) → state.rest.length < bound → { outcome : Outcome α // outcome.Shortens state }

namespace Rule

/-- Runs a rule from a state. -/
abbrev run {α : Type} (rule : Rule α) (state : State) : Outcome α :=
  rule.step.run state

/-- The rule, asked only about states with fewer than `bound` tokens left. -/
def below {α : Type} (rule : Rule α) (bound : Nat) : RuleBelow bound α :=
  fun state _ => ⟨rule.run state, rule.shortens state⟩

/-- The rule that always fails. -/
def fail {α : Type} (cause : Cause) : Rule α :=
  ⟨ParseM.fail cause, ParseM.shortens_fail cause⟩

/-- Runs a rule inside one more open expression, which is closed again whether
the rule succeeds or fails. -/
def nested {α : Type} (rule : Rule α) : Rule α where
  step := do
    ParseM.descend
    ParseM.closing rule.step
  shortens := ParseM.keeps_descend.bind_shortens fun _ => rule.shortens.closing

end Rule

end MlFront
