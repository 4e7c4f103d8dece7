import MlFront.Proofs.Parser.Nesting

/-!
# The chain of open forms is a plain recursion

The last expression of a form is on the level of the form. `ParseM.plain` parses it by a
call of itself, and closes the form when the call is back. The parser has a loop for this:
it keeps the open forms and closes them all at the end (`Rule.chain`). Both come to the
same end from every state, since the loop with some forms waiting is the recursion with
these forms closed around it (`run_chainSteps`).
-/

namespace MlFront

namespace ParseM

/-- What is parsed inside of an open expression, by the loop of the parser. -/
def inside (tables : Tables) : ParseM Node where
  run state := (Rule.body tables (.expression tables state.levelsLeft)).run state

/-- What is parsed inside of an open expression: operators, or a form and, by a call of
itself, its last expression. -/
def plainFrom (tables : Tables) (state : State) : Outcome Node :=
  match state.rest.head? with
  | none => .error (state.fault .unexpectedEnd) state
  | some token =>
    match tables.form token.kind with
    | none => ((Entry.binary .relational).step tables).run state
    | some form =>
      match h : (form.step tables).run state with
      | .error fault after => .error fault after
      | .ok opened after =>
        have := (form.rule (.expression tables state.levelsLeft)).shortens state opened after h
        (plainFrom tables after).andThen fun node final => (build (opened.close node)).run final
  termination_by state.rest.length

/-- `plainFrom` as a step of a parse. -/
def plain (tables : Tables) : ParseM Node :=
  ⟨plainFrom tables⟩

theorem plain_eq (tables : Tables) :
    plain tables = (do
      match ← current? with
      | none => fail .unexpectedEnd
      | some token =>
        match tables.form token.kind with
        | none => (Entry.binary .relational).step tables
        | some form =>
          let opened ← form.step tables
          let node ← plain tables
          build (opened.close node)) := by
  ext state
  rcases state with ⟨before, _ | ⟨token, rest⟩, nesting⟩
  · simp only [plain]
    rw [plainFrom]
    rfl
  · simp only [plain, run_bind, current?, Outcome.andThen_ok, List.head?_cons]
    rw [plainFrom]
    simp only [List.head?_cons]
    cases tables.form token.kind with
    | none => rfl
    | some form =>
      simp only [run_bind]
      split
      · next h => rw [h, Outcome.andThen_error]
      · next h =>
        rw [h, Outcome.andThen_ok]
        rfl

end ParseM

open ParseM

theorem Outcome.andThen_assoc {α β γ : Type} (outcome : Outcome α) (f : α → State → Outcome β)
    (g : β → State → Outcome γ) :
    (outcome.andThen f).andThen g =
      outcome.andThen fun value after => (f value after).andThen g := by
  cases outcome <;> rfl

namespace Rule

/-- With forms waiting, the loop does what the recursion does and then closes the forms. -/
theorem run_chainSteps {tables : Tables} {levels : Nat} (waiting : List OpenForm) {state : State}
    (hlevels : state.levelsLeft = levels) :
    (chainSteps tables (expression tables levels)
      (binary tables (application (expression tables levels)) .relational) waiting).run state =
      (plain tables >>= closeAll waiting).run state := by
  induction hn : state.rest.length using Nat.strongRecOn generalizing waiting state with
  | _ n ih =>
    rw [chainSteps_eq, run_bind, run_bind, plain_eq, run_bind]
    simp only [current?, Outcome.andThen_ok]
    cases state.rest.head? with
    | none => rfl
    | some token =>
      simp only
      cases tables.form token.kind with
      | none =>
        subst hlevels
        rfl
      | some form =>
        have hbalanced := form.balanced_step tables state
        simp only [run_bind]
        subst hlevels
        show (((form.step tables).run state).andThen _) = _
        cases hrun : (form.step tables).run state with
        | error fault after => rfl
        | ok opened after =>
          rw [hrun] at hbalanced
          have hafter : after.levelsLeft = state.levelsLeft :=
            congrArg (maxNesting - ·) hbalanced
          have hlt := (form.rule (.expression tables state.levelsLeft)).shortens state opened
            after hrun
          -- the form that has been opened waits in front of the others
          refine (ih _ (hn ▸ hlt) (opened :: waiting) hafter rfl).trans ?_
          rw [Outcome.andThen_ok, run_bind, run_bind, Outcome.andThen_assoc]
          rfl

end Rule

/-- Steps that agree behind the opening of an expression agree with it around them. -/
theorem ParseM.nested_congr {α : Type} {a b : ParseM α} {state : State}
    (h : state.nesting < maxNesting →
      a.run { state with nesting := state.nesting + 1 } =
        b.run { state with nesting := state.nesting + 1 }) :
    (descend >>= fun _ => closing a).run state = (descend >>= fun _ => closing b).run state := by
  rw [run_bind, run_bind]
  simp only [descend]
  split
  · rfl
  · next hlevel => simp only [Outcome.andThen_ok, closing, h (by omega)]

/-- An expression is opened, parsed inside, and closed again. -/
theorem Entry.step_expression (tables : Tables) :
    Entry.expression.step tables = (do
      descend
      closing (inside tables)) := by
  ext state
  show (Rule.expression tables state.levelsLeft).step.run state = _
  cases hlevels : state.levelsLeft with
  | zero =>
    have hfull := state.maxNesting_le
    exact nested_congr fun hlevel => by omega
  | succ levels =>
    refine nested_congr fun _ => ?_
    have hinside : State.levelsLeft { state with nesting := state.nesting + 1 } = levels := by
      unfold State.levelsLeft at hlevels ⊢
      simp only
      omega
    simp only [inside, hinside]

theorem ParseM.inside_eq (tables : Tables) : inside tables = plain tables := by
  ext state
  calc (inside tables).run state = (plain tables >>= Rule.closeAll []).run state :=
      Rule.run_chainSteps [] rfl
    _ = (plain tables).run state := by
      rw [run_bind]
      cases (plain tables).run state <;> rfl

/-- The loop that collects open forms and closes them innermost first is the plain
recursion: with any tables and from any state both give the same node or the same fault,
and they leave the same state. So an expression is opened, parsed by the recursion, and
closed again. -/
theorem inside_eq_plain (tables : Tables) (state : State) :
    (inside tables).run state = (plain tables).run state ∧
      (Entry.expression.step tables).run state =
        (descend >>= fun _ => closing (plain tables)).run state := by
  rw [Entry.step_expression, inside_eq]
  exact ⟨rfl, rfl⟩

end MlFront
