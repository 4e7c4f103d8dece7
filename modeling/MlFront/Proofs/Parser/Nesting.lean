import MlFront.Proofs.Parser.Steps

/-!
# Open expressions are closed again

The number of open expressions after a step is the one before it (`Outcome.Balanced`),
whether the step succeeds or fails. The one exception is a step that fails because too
many are open: the expression that was refused stays counted.
-/

namespace MlFront

open ParseM

/-- As many expressions are open as before, or one more where it was one too many. -/
def Outcome.Balanced {α : Type} (nesting : Nat) : Outcome α → Prop
  | ok _ after => after.nesting = nesting
  | error fault after =>
    after.nesting = if fault.cause = .tooNested then nesting + 1 else nesting

namespace State

variable (state : State)

@[simp] theorem nesting_skip (count : Nat) : (state.skip count).nesting = state.nesting := rfl

@[simp] theorem nesting_next : state.next.nesting = state.nesting := by
  rw [next_eq_skip, nesting_skip]

end State

theorem Cause.tooDeep_ne_tooNested : Cause.tooDeep ≠ .tooNested := by decide

/-! ## Steps -/

namespace ParseM

variable {α β : Type} {state : State}

theorem balanced_ok {value : α} {after : State} (h : after.nesting = state.nesting) :
    (Outcome.ok value after).Balanced state.nesting := h

theorem balanced_error {fault : Fault} {after : State} (h : after.nesting = state.nesting)
    (hcause : fault.cause ≠ .tooNested) :
    (Outcome.error fault after : Outcome α).Balanced state.nesting :=
  h.trans (if_neg hcause).symm

theorem balanced_fail {cause : Cause} (hcause : cause ≠ .tooNested) :
    ((fail cause : ParseM α).run state).Balanced state.nesting :=
  balanced_error rfl hcause

theorem balanced_advance : (advance.run state).Balanced state.nesting :=
  balanced_ok state.nesting_next

theorem balanced_expectOr {text : String} {fault : State → Fault}
    (hcause : (fault state).cause ≠ .tooNested) :
    ((expectOr text fault).run state).Balanced state.nesting := by
  simp only [expectOr]
  split
  · split
    · exact balanced_ok state.nesting_next
    · exact balanced_error rfl hcause
  · exact balanced_error rfl hcause

theorem balanced_expect {text : String} : ((expect text).run state).Balanced state.nesting :=
  balanced_expectOr (by simp [State.fault, State.faultAt, Cause.tooNested])

theorem balanced_nameOr {cause : Cause} {line : Nat} (hcause : cause ≠ .tooNested) :
    ((nameOr cause line).run state).Balanced state.nesting := by
  simp only [nameOr]
  split
  · split
    · exact balanced_ok state.nesting_next
    · exact balanced_error rfl hcause
  · exact balanced_error rfl hcause

theorem balanced_parameters : (parameters.run state).Balanced state.nesting :=
  balanced_ok rfl

theorem balanced_arrow {names : List String} {line : Nat} :
    ((arrow names line).run state).Balanced state.nesting := by
  simp only [arrow]
  split
  · exact balanced_error rfl (by simp [State.faultAt, Cause.tooNested])
  · split
    · exact balanced_error state.nesting_next (by simp [State.faultAt, Cause.tooNested])
    · exact balanced_ok state.nesting_next

theorem balanced_more {cause : Cause} (hcause : cause ≠ .tooNested) :
    ((more cause).run state).Balanced state.nesting := by
  simp only [more]
  split
  · exact balanced_error rfl hcause
  · exact balanced_ok rfl

theorem balanced_build (node : Node) : ((build node).run state).Balanced state.nesting := by
  simp only [build]
  split
  · exact balanced_error rfl Cause.tooDeep_ne_tooNested
  · exact balanced_ok rfl

/-! ## Steps put together -/

/-- The next step only has to be balanced where the first one has closed what it opened. -/
theorem Balanced.bind {step : ParseM α} {next : α → ParseM β}
    (h : (step.run state).Balanced state.nesting)
    (hnext : ∀ value after, step.run state = .ok value after → after.nesting = state.nesting →
      ((next value).run after).Balanced after.nesting) :
    ((step >>= next).run state).Balanced state.nesting := by
  rw [run_bind]
  cases hrun : step.run state with
  | error fault after =>
    rw [hrun] at h
    exact h
  | ok value after =>
    rw [hrun] at h
    have hafter : after.nesting = state.nesting := h
    have hvalue := hnext value after hrun hafter
    rw [hafter] at hvalue
    exact hvalue

theorem Balanced.map {step : ParseM α} {f : α → β}
    (h : (step.run state).Balanced state.nesting) :
    ((step >>= fun value => pure (f value)).run state).Balanced state.nesting :=
  Balanced.bind h fun _ _ _ _ => balanced_ok rfl

/-- An expression is closed again, unless it is the one that is refused. -/
theorem Balanced.nested {step : ParseM α}
    (h : state.nesting < maxNesting → ∀ inside : State, inside.nesting = state.nesting + 1 →
      (step.run inside).Balanced inside.nesting) :
    ((descend >>= fun _ => closing step).run state).Balanced state.nesting := by
  rw [run_bind]
  simp only [descend]
  split
  · exact (if_pos rfl).symm
  · next hlevel =>
    have hinside := h (by omega) { state with nesting := state.nesting + 1 } rfl
    simp only [Outcome.andThen_ok, closing]
    cases hrun : step.run { state with nesting := state.nesting + 1 } with
    | ok value after =>
      rw [hrun] at hinside
      exact congrArg (· - 1) hinside
    | error fault after =>
      rw [hrun] at hinside
      simp only [Outcome.Balanced, State.closeOne, State.closeMany] at hinside ⊢
      rw [hinside]
      split <;> rfl

end ParseM

/-! ## Rules -/

namespace Rule

/-- Where `nesting` expressions are open, the rule leaves as many open. -/
def Balanced {α : Type} (nesting : Nat) (rule : Rule α) : Prop :=
  ∀ state, state.nesting = nesting → (rule.step.run state).Balanced state.nesting

variable {inner : Rule Node} {nesting : Nat}

theorem balanced_grouping (h : inner.Balanced nesting) : (grouping inner).Balanced nesting := by
  intro state hstate
  refine ParseM.Balanced.bind balanced_expect fun _ opened _ hopened => ?_
  refine ParseM.Balanced.bind (h opened (hopened.trans hstate)) fun _ _ _ _ => ?_
  exact ParseM.Balanced.map
    (balanced_expectOr (by simp [State.fault, State.faultAt, Cause.tooNested]))

theorem balanced_primary (h : inner.Balanced nesting) : (primary inner).Balanced nesting := by
  intro state hstate
  simp only [primary]
  split
  · exact balanced_error rfl (by simp [State.fault, State.faultAt, Cause.tooNested])
  · split
    · exact balanced_ok state.nesting_next
    · exact balanced_ok state.nesting_next
    · exact balanced_ok state.nesting_next
    · exact balanced_grouping h state hstate
    · split
      · exact balanced_ok state.nesting_next
      · exact balanced_error rfl (by simp [State.fault, State.faultAt, Cause.tooNested])

theorem balanced_argumentSteps {argument : Rule Node} (h : argument.Balanced nesting)
    (done : List Node) {state : State} (hstate : state.nesting = nesting) :
    ((argumentSteps argument done).run state).Balanced state.nesting := by
  induction hn : state.rest.length using Nat.strongRecOn generalizing done state with
  | _ n ih =>
    rw [argumentSteps_eq, run_bind]
    simp only [current?, Outcome.andThen_ok]
    split
    · exact balanced_ok rfl
    · split
      · exact balanced_ok rfl
      · refine ParseM.Balanced.bind (h state hstate) fun node after hrun hafter => ?_
        exact ih _ (hn ▸ argument.shortens state node after hrun) _ (hafter.trans hstate) rfl

theorem balanced_application (h : inner.Balanced nesting) :
    (application inner).Balanced nesting := by
  intro state hstate
  have hprimary := balanced_primary h
  rw [application_step]
  refine ParseM.Balanced.bind (hprimary state hstate) fun callee after _ hafter => ?_
  refine ParseM.Balanced.bind (balanced_argumentSteps hprimary [] (hafter.trans hstate))
    fun list after _ _ => ?_
  cases list with
  | nil => exact balanced_ok rfl
  | cons => exact balanced_build _

theorem balanced_foldSteps {tables : Tables} {operand : Rule Node} {bound : Nat}
    (hright : ∀ power state, state.rest.length < bound → state.nesting = nesting →
      ((binary tables operand power).step.run state).Balanced state.nesting)
    (minimum : Power) (left : Node) {state : State} (hbound : state.rest.length ≤ bound)
    (hstate : state.nesting = nesting) :
    ((foldSteps tables operand minimum left).run state).Balanced state.nesting := by
  induction hn : state.rest.length using Nat.strongRecOn generalizing left state with
  | _ n ih =>
    rw [foldSteps_eq, run_bind]
    simp only [operator?, Outcome.andThen_ok]
    split
    · exact balanced_ok rfl
    · next operator power hop =>
      split
      · exact balanced_ok rfl
      · have hlt := State.length_rest_next_lt hop
        refine ParseM.Balanced.bind balanced_advance fun _ after hrun hafter => ?_
        cases hrun
        have hnext : state.next.nesting = nesting := hafter.trans hstate
        refine ParseM.Balanced.bind (balanced_more (by simp [Cause.tooNested]))
          fun _ after hrun _ => ?_
        obtain rfl := eq_of_more hrun
        refine ParseM.Balanced.bind (hright power.tighter _ (by omega) hnext)
          fun right after hrun hafter => ?_
        have hshort := (binary tables operand power.tighter).shortens _ right after hrun
        refine ParseM.Balanced.bind (balanced_build _) fun node final hrun _ => ?_
        obtain rfl := eq_of_build hrun
        exact ih _ (by omega) node (by omega) (hafter.trans hnext) rfl

theorem balanced_binary {tables : Tables} {operand : Rule Node} (h : operand.Balanced nesting)
    (minimum : Power) : (binary tables operand minimum).Balanced nesting := by
  intro state hstate
  induction hn : state.rest.length using Nat.strongRecOn generalizing minimum state with
  | _ n ih =>
    rw [binary_step]
    refine ParseM.Balanced.bind (h state hstate) fun left after hrun hafter => ?_
    have hlt := operand.shortens state left after hrun
    exact balanced_foldSteps
      (fun power state hlt' hstate' => ih _ (by omega) power state hstate' rfl) minimum left
      (Nat.le_refl _) (hafter.trans hstate)

theorem balanced_form (h : inner.Balanced nesting) (form : Form) :
    (form.rule inner).Balanced nesting := by
  intro state hstate
  cases form with
  | letIn =>
    refine ParseM.Balanced.bind (balanced_ok rfl) fun line s₁ _ h₁ => ?_
    refine ParseM.Balanced.bind balanced_expect fun _ s₂ _ h₂ => ?_
    refine ParseM.Balanced.bind (balanced_nameOr (by simp [Cause.tooNested])) fun _ s₃ _ h₃ => ?_
    refine ParseM.Balanced.bind (balanced_expectOr (by simp [State.faultAt, Cause.tooNested]))
      fun _ s₄ _ h₄ => ?_
    refine ParseM.Balanced.bind (h s₄ (by rw [h₄, h₃, h₂, h₁, hstate])) fun _ _ _ _ => ?_
    exact ParseM.Balanced.map (balanced_expectOr (by simp [State.faultAt, Cause.tooNested]))
  | ifThenElse =>
    refine ParseM.Balanced.bind (balanced_ok rfl) fun line s₁ _ h₁ => ?_
    refine ParseM.Balanced.bind balanced_expect fun _ s₂ _ h₂ => ?_
    have hcondition : s₂.nesting = nesting := by rw [h₂, h₁, hstate]
    refine ParseM.Balanced.bind (h s₂ hcondition) fun _ s₃ _ h₃ => ?_
    refine ParseM.Balanced.bind (balanced_expectOr (by simp [State.faultAt, Cause.tooNested]))
      fun _ s₄ _ h₄ => ?_
    refine ParseM.Balanced.bind (h s₄ (by rw [h₄, h₃, hcondition])) fun _ _ _ _ => ?_
    exact ParseM.Balanced.map (balanced_expectOr (by simp [State.faultAt, Cause.tooNested]))
  | function =>
    refine ParseM.Balanced.bind (balanced_ok rfl) fun line _ _ _ => ?_
    refine ParseM.Balanced.bind balanced_expect fun _ _ _ _ => ?_
    refine ParseM.Balanced.bind balanced_parameters fun _ _ _ _ => ?_
    exact ParseM.Balanced.map balanced_arrow

theorem balanced_closeAll (forms : List OpenForm) (node : Node) (state : State) :
    ((closeAll forms node).run state).Balanced state.nesting := by
  induction forms generalizing node state with
  | nil => exact balanced_ok rfl
  | cons form more ih =>
    exact ParseM.Balanced.bind (balanced_build _) fun node after _ _ => ih node after

theorem balanced_chainSteps {tables : Tables} {last : Rule Node} (h : inner.Balanced nesting)
    (hlast : last.Balanced nesting) (waiting : List OpenForm) {state : State}
    (hstate : state.nesting = nesting) :
    ((chainSteps tables inner last waiting).run state).Balanced state.nesting := by
  induction hn : state.rest.length using Nat.strongRecOn generalizing waiting state with
  | _ n ih =>
    rw [chainSteps_eq, run_bind]
    simp only [current?, Outcome.andThen_ok]
    split
    · exact balanced_fail (by simp [Cause.tooNested])
    · split
      · exact ParseM.Balanced.bind (hlast state hstate) fun node after _ _ =>
          balanced_closeAll waiting node after
      · next form _ =>
        refine ParseM.Balanced.bind (balanced_form h form state hstate)
          fun opened after hrun hafter => ?_
        exact ih _ (hn ▸ (form.rule inner).shortens state opened after hrun) _
          (hafter.trans hstate) rfl

/-- With as many levels left as may still be opened, the one fault that leaves an
expression open is the refusal of one more. -/
theorem balanced_expression (tables : Tables) {levels nesting : Nat}
    (hlevels : maxNesting ≤ nesting + levels) : (expression tables levels).Balanced nesting := by
  induction levels generalizing nesting with
  | zero => exact fun state hstate => ParseM.Balanced.nested fun hlevel => by omega
  | succ levels ih =>
    intro state hstate
    rw [expression_succ]
    refine ParseM.Balanced.nested fun _ inside hinside => ?_
    have hinner : (expression tables levels).Balanced (nesting + 1) := ih (by omega)
    exact balanced_chainSteps hinner (balanced_binary (balanced_application hinner) _) []
      (by rw [hinside, hstate])

end Rule

/-! ## Rules from any state -/

theorem State.maxNesting_le (state : State) :
    maxNesting ≤ state.nesting + state.levelsLeft := by
  unfold levelsLeft
  omega

/-- Every rule for nodes is balanced, also where more expressions are open than may be. -/
theorem Entry.balanced_step (tables : Tables) (entry : Entry) (state : State) :
    ((entry.step tables).run state).Balanced state.nesting := by
  have hinner : (Rule.expression tables state.levelsLeft).Balanced state.nesting :=
    Rule.balanced_expression tables state.maxNesting_le
  have hoperand := Rule.balanced_application hinner
  cases entry with
  | expression => exact hinner state rfl
  | binary minimum => exact Rule.balanced_binary hoperand minimum state rfl
  | application => exact hoperand state rfl
  | primary => exact Rule.balanced_primary hinner state rfl
  | grouping => exact Rule.balanced_grouping hinner state rfl

theorem Form.balanced_step (tables : Tables) (form : Form) (state : State) :
    ((form.step tables).run state).Balanced state.nesting :=
  Rule.balanced_form (Rule.balanced_expression tables state.maxNesting_le) form state rfl

/-- Whatever the tables, the tokens and the number of open expressions are, a rule leaves
one more expression open if it fails with the limit on nesting, and else as many as
before, however deep inside of it the failure was. -/
theorem rules_balanced (tables : Tables) (state : State) :
    Cause.tooNested = .internal "expression nesting exceeds 200 levels" ∧
      (∀ entry : Entry, ((entry.step tables).run state).Balanced state.nesting) ∧
        ∀ form : Form, ((form.step tables).run state).Balanced state.nesting :=
  ⟨by decide, fun entry => entry.balanced_step tables state,
    fun form => form.balanced_step tables state⟩

/-- Where 198 expressions are open, the one behind the third parenthesis is refused, and it
stays counted. -/
example :
    let state : State := ⟨[], List.replicate 3 ⟨"(", 1⟩, 198⟩
    ((Entry.grouping.step .standard).run state) =
      .error ⟨.tooNested, ⟨1, 3⟩⟩ ⟨List.replicate 3 ⟨"(", 1⟩, [], 199⟩ := by
  decide +kernel

end MlFront
