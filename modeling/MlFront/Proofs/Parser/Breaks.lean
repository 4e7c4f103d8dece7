import MlFront.Proofs.Parser.Reads

/-!
# What a step has read when it fails

`Outcome.Breaks outcome state P`: if the outcome, reached from `state`, is a fault, then
the cursor has moved over some tokens, and `P` holds of these tokens and of the cause. It
is the other side of `Outcome.Reads`: in `Breaks.bind` the first step breaks off, or it
reads tokens and the next step breaks off behind them.
-/

namespace MlFront

/-- The outcome, reached from `state`, is a fault only behind tokens that satisfy `P`. -/
def Outcome.Breaks {α : Type} (outcome : Outcome α) (state : State)
    (P : List Token → Cause → Prop) : Prop :=
  ∀ fault after, outcome = .error fault after →
    ∃ taken, state.rest = taken ++ after.rest ∧ P taken fault.cause

namespace Outcome

variable {α : Type} {state : State} {P Q : List Token → Cause → Prop}

theorem Breaks.mono {outcome : Outcome α} (h : outcome.Breaks state P)
    (hPQ : ∀ taken cause, taken <+: state.rest → P taken cause → Q taken cause) :
    outcome.Breaks state Q := by
  intro fault after he
  obtain ⟨taken, hrest, hP⟩ := h fault after he
  exact ⟨taken, hrest, hPQ taken fault.cause ⟨after.rest, hrest.symm⟩ hP⟩

theorem breaks_ok (value : α) (after : State) : (ok value after).Breaks state P := by
  intro fault after he
  cases he

theorem breaks_error {fault : Fault} (h : P [] fault.cause) :
    (error fault state : Outcome α).Breaks state P := by
  intro fault' after he
  cases he
  exact ⟨[], rfl, h⟩

end Outcome

namespace ParseM

variable {α β : Type} {state : State} {P Q : List Token → Cause → Prop}

/-- The next step breaks off behind the tokens that the first one has taken. -/
theorem Breaks.bind {step : ParseM α} {next : α → ParseM β} {R : List Token → α → List Token → Prop}
    (h : (step.run state).Breaks state Q) (hreads : (step.run state).Reads state R)
    (hnext : ∀ taken value, state.rest = taken ++ (state.skip taken.length).rest →
      R taken value (state.skip taken.length).rest →
      step.run state = .ok value (state.skip taken.length) →
      ((next value).run (state.skip taken.length)).Breaks (state.skip taken.length)
        fun more cause => Q (taken ++ more) cause) :
    ((step >>= next).run state).Breaks state Q := by
  rw [run_bind]
  cases hrun : step.run state with
  | error fault after =>
    rintro _ _ ⟨⟩
    exact h fault after hrun
  | ok value middle =>
    obtain ⟨taken, hrest, rfl, hR⟩ := hreads value middle hrun
    intro fault after he
    obtain ⟨more, hmore, hQ⟩ := hnext taken value hrest hR hrun fault after he
    exact ⟨taken ++ more, by rw [hrest, hmore, List.append_assoc], hQ⟩

theorem Breaks.map {step : ParseM α} {f : α → β} (h : (step.run state).Breaks state Q) :
    ((step >>= fun value => pure (f value)).run state).Breaks state Q := by
  rw [run_bind]
  cases hrun : step.run state with
  | error fault after =>
    rintro _ _ ⟨⟩
    exact h fault after hrun
  | ok value middle => exact Outcome.breaks_ok _ _

theorem breaks_expectOr {text : String} {fault : State → Fault} (h : P [] (fault state).cause) :
    ((expectOr text fault).run state).Breaks state P := by
  simp only [expectOr]
  split
  · split
    · exact Outcome.breaks_ok _ _
    · exact Outcome.breaks_error h
  · exact Outcome.breaks_error h

theorem breaks_nameOr {cause : Cause} {line : Nat} (h : P [] cause) :
    ((nameOr cause line).run state).Breaks state P := by
  simp only [nameOr]
  split
  · split
    · exact Outcome.breaks_ok _ _
    · exact Outcome.breaks_error h
  · exact Outcome.breaks_error h

/-- An arrow is missing, or it is there, behind some parameters, and nothing follows it. -/
theorem breaks_arrow {names : List String} {line : Nat} (hmissing : P [] .expectedArrow)
    (hlast : ∀ token : Token, token.kind = .arrow → names ≠ [] → P [token] .expectedFunctionBody) :
    ((arrow names line).run state).Breaks state P := by
  simp only [arrow]
  split
  · exact Outcome.breaks_error hmissing
  · next hif =>
    split
    · simp only [Bool.or_eq_true, not_or, List.isEmpty_iff, bne_iff_ne, ne_eq,
        Decidable.not_not, Option.map_eq_some_iff] at hif
      obtain ⟨hnames, token, hhead, hkind⟩ := hif
      obtain ⟨rest, hrest⟩ := List.head?_eq_some_iff.mp hhead
      intro fault after he
      cases he
      exact ⟨[token], by simp [State.next_eq_skip, hrest], hlast token hkind hnames⟩
    · exact Outcome.breaks_ok _ _

theorem breaks_more {cause : Cause} (h : P [] cause) :
    ((more cause).run state).Breaks state P := by
  simp only [more]
  split
  · exact Outcome.breaks_error h
  · exact Outcome.breaks_ok _ _

theorem breaks_build {node : Node} (h : maxDepth < node.depth → P [] .tooDeep) :
    ((build node).run state).Breaks state P := by
  simp only [build]
  split
  · next hdeep => exact Outcome.breaks_error (h hdeep)
  · exact Outcome.breaks_ok _ _

/-- A step inside one more open expression breaks off as it does there, unless the
expression is refused. -/
theorem breaks_nested {step : ParseM α} (hfull : maxNesting ≤ state.nesting → P [] .tooNested)
    (h : state.nesting < maxNesting →
      (step.run { state with nesting := state.nesting + 1 }).Breaks state P) :
    ((descend >>= fun _ => closing step).run state).Breaks state P := by
  rw [run_bind]
  simp only [descend]
  split
  · next hlevel =>
    intro fault after he
    cases he
    exact ⟨[], rfl, hfull (by omega)⟩
  · next hlevel =>
    have hinside := h (by omega)
    simp only [Outcome.andThen_ok, closing]
    cases hrun : step.run { state with nesting := state.nesting + 1 } with
    | ok value after => exact Outcome.breaks_ok _ _
    | error fault after =>
      rintro _ _ ⟨⟩
      exact hinside fault after hrun

end ParseM

end MlFront
