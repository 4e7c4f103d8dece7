import MlFront.Proofs.Error.Grounds
import MlFront.Proofs.Parser.Locality

/-!
# Every fault of the parser has its grounds

The rules are taken in the order in which they are built on each other. `Explains`
is what they need of the rule for the expressions inside of them: it ends what it
reads at a terminator, so that a missing word is missing in front of another
terminator, and its own faults have grounds. A rule that starts with a certain word
is looked at in front of that word.
-/

namespace MlFront

open Grammar ParseM

/-- The rule reads expressions up to a terminator, and there are grounds for its faults. -/
structure Explains (inner : Rule Node) : Prop where
  reads : ∀ state, (inner.step.run state).Reads state fun tokens node rest =>
    Accepted .expression maxNesting tokens node ∧ Stops .relational rest
  grounded : ∀ state, (inner.step.run state).Grounded

section Rules

variable {inner : Rule Node} {state : State} {token : Token} {rest : List Token}

/-! ## Primaries and applications -/

theorem grounded_grouping (hinner : Explains inner) (hrest : state.rest = token :: rest)
    (hopen : token.text = "(") : ((Rule.grouping inner).step.run state).Grounded := by
  rw [Rule.grouping, run_bind_of_ok (run_expect hrest hopen)]
  refine Grounded.bind_reads (hinner.grounded _) (hinner.reads _) ?_
  rintro tokens node after - ⟨-, hstops⟩
  refine Grounded.map (grounded_expectOr fun hclose => ?_)
  exact grounded_fault (.closingParen (hstops.endsBut hclose))

theorem grounded_primary (hinner : Explains inner) (state : State) :
    ((Rule.primary inner).step.run state).Grounded := by
  simp only [Rule.primary]
  split
  · next hrest => exact grounded_fault (.unexpectedEnd hrest)
  · next token rest hrest =>
    split
    · trivial
    · trivial
    · trivial
    · next hkind => exact grounded_grouping hinner hrest (Token.kind_eq_openParen_iff.mp hkind)
    · next hnumber htrue hfalse hopen =>
      split
      · trivial
      · next hname =>
        refine grounded_fault (.unexpectedToken (by rw [hrest]; rfl) (Token.kind_mem_strays ?_ ?_))
        · simpa using ⟨hnumber, htrue, hfalse, hopen⟩
        · simpa using hname

theorem grounded_argumentSteps (hinner : Explains inner) (done : List Node) (state : State) :
    ((Rule.argumentSteps (Rule.primary inner) done).run state).Grounded := by
  induction hn : state.rest.length using Nat.strongRecOn generalizing done state with
  | _ n ih =>
    rw [Rule.argumentSteps_eq, run_bind]
    simp only [current?, Outcome.andThen_ok]
    split
    · trivial
    · split
      · trivial
      · refine Grounded.bind (grounded_primary hinner state) fun node after hrun => ?_
        exact ih _ (hn ▸ (Rule.primary inner).shortens state node after hrun) _ _ rfl

theorem grounded_application (hinner : Explains inner) (state : State) :
    ((Rule.application inner).step.run state).Grounded := by
  rw [Rule.application_step]
  refine Grounded.bind (grounded_primary hinner state) fun callee after _ => ?_
  refine Grounded.bind (grounded_argumentSteps hinner [] after) fun arguments _ _ => ?_
  cases arguments with
  | nil => trivial
  | cons => exact grounded_build _

/-! ## Runs of operators -/

/-- Folding fails at an operator without a right operand, in a right operand, or
where the tree gets too deep. -/
theorem grounded_foldSteps {operand : Rule Node} {bound : Nat}
    (hright : ∀ minimum state, state.rest.length < bound →
      ((Rule.binary .standard operand minimum).step.run state).Grounded)
    (minimum : Power) (left : Node) {state : State} (hbound : state.rest.length ≤ bound) :
    ((Rule.foldSteps .standard operand minimum left).run state).Grounded := by
  induction hn : state.rest.length using Nat.strongRecOn generalizing left state with
  | _ n ih =>
    rw [Rule.foldSteps_eq, run_bind]
    simp only [operator?, Outcome.andThen_ok]
    split
    · trivial
    · next operator power hop =>
      obtain ⟨token, more, hrest, rfl, hpower⟩ := State.operator?_eq_some hop
      split
      · trivial
      · rw [run_bind_of_ok (run_advance hrest)]
        have hlt : (state.skip 1).rest.length < state.rest.length := by simp [hrest]
        refine Grounded.bind (grounded_more fun hend => ?_) fun _ after hrun => ?_
        · exact .rightOperand (State.passed_skip_one hrest) (isBinaryOperator_of_power hpower) hend
        obtain rfl := eq_of_more hrun
        refine Grounded.bind (hright power.tighter _ (by omega)) fun right after hrun => ?_
        have hshort := Rule.shortens _ _ right after hrun
        refine Grounded.bind (grounded_build _) fun node final hrun => ?_
        obtain rfl := eq_of_build hrun
        exact ih _ (by omega) node (by omega) rfl

theorem grounded_binary (hinner : Explains inner) (minimum : Power) (state : State) :
    ((Rule.binary .standard (.application inner) minimum).step.run state).Grounded := by
  induction hn : state.rest.length using Nat.strongRecOn generalizing minimum state with
  | _ n ih =>
    rw [Rule.binary_step]
    refine Grounded.bind (grounded_application hinner state) fun left after hrun => ?_
    have hlt := (Rule.application inner).shortens state left after hrun
    exact grounded_foldSteps (fun minimum state hlt' => ih _ (by omega) minimum state rfl) minimum
      left (Nat.le_refl _)

/-! ## Forms -/

theorem grounded_letIn (hinner : Explains inner) (hrest : state.rest = token :: rest)
    (hlet : token.text = "let") : ((Rule.letIn inner).step.run state).Grounded := by
  refine Grounded.keyword hrest hlet fun started hpassed => ?_
  refine Grounded.bind_reads (grounded_nameOr fun hname => .letName hpassed hlet hname)
    reads_nameOr ?_
  rintro _ _ named hnamed ⟨name, rfl, hname, rfl⟩
  rw [hpassed, List.append_assoc] at hnamed
  refine Grounded.bind_reads (grounded_expectOr fun hequals => .letEquals hnamed hlet hname hequals)
    reads_expectOr ?_
  rintro _ equals opened hopened ⟨rfl, hequals⟩
  rw [hnamed, List.append_assoc] at hopened
  refine Grounded.bind_reads (hinner.grounded opened) (hinner.reads opened) ?_
  rintro value node after hafter ⟨hvalue, hstops⟩
  rw [hopened, List.append_assoc] at hafter
  refine Grounded.map (grounded_expectOr fun hin => ?_)
  exact .letIn hafter hlet hname hequals hvalue (hstops.endsBut hin)

theorem grounded_ifThenElse (hinner : Explains inner) (hrest : state.rest = token :: rest)
    (hif : token.text = "if") : ((Rule.ifThenElse inner).step.run state).Grounded := by
  refine Grounded.keyword hrest hif fun started hpassed => ?_
  refine Grounded.bind_reads (hinner.grounded started) (hinner.reads started) ?_
  rintro condition node tested htested ⟨hcondition, hstops⟩
  rw [hpassed, List.append_assoc] at htested
  refine Grounded.bind_reads (grounded_expectOr fun hthen => ?_) reads_expectOr ?_
  · exact .thenWord htested hif hcondition (hstops.endsBut hthen)
  rintro _ thenWord opened hopened ⟨rfl, hthen⟩
  rw [htested, List.append_assoc] at hopened
  refine Grounded.bind_reads (hinner.grounded opened) (hinner.reads opened) ?_
  rintro first firstNode after hafter ⟨hfirst, hstops⟩
  rw [hopened, List.append_assoc] at hafter
  have hwhole : after.passed = state.passed ++ token :: (condition ++ thenWord :: first) := by
    simpa using hafter
  refine Grounded.map (grounded_expectOr fun helse => ?_)
  exact .elseWord hwhole hif hcondition hthen hfirst (hstops.endsBut helse)

theorem grounded_function (hrest : state.rest = token :: rest) (hfn : token.text = "fn") :
    (Rule.function.step.run state).Grounded := by
  refine Grounded.keyword hrest hfn fun started hpassed => ?_
  refine Grounded.bind_reads (grounded_parameters started) reads_parameters ?_
  rintro parameters _ after hafter ⟨hparameters, rfl, hnext⟩
  simp only [Token.isParameter_eq] at hparameters hnext
  rw [hpassed, List.append_assoc] at hafter
  refine Grounded.map (grounded_arrow (fun hmissing => ?_) fun arrow hend harrow hsome => ?_)
  · rw [List.map_eq_nil_iff] at hmissing
    exact .arrow hafter hfn hparameters hnext hmissing
  · have hwhole : after.passed ++ [arrow] = state.passed ++ token :: (parameters ++ [arrow]) := by
      simp [hafter]
    exact .functionBody hwhole hfn (by simpa using hsome) hparameters harrow rfl

theorem grounded_form (hinner : Explains inner) {form : Form} (hrest : state.rest = token :: rest)
    (hform : token.text = openerOf form) : ((form.rule inner).step.run state).Grounded := by
  cases form with
  | letIn => exact grounded_letIn hinner hrest hform
  | ifThenElse => exact grounded_ifThenElse hinner hrest hform
  | function => exact grounded_function hrest hform

/-! ## Expressions -/

theorem grounded_closeAll (forms : List OpenForm) (node : Node) (state : State) :
    ((Rule.closeAll forms node).run state).Grounded := by
  induction forms generalizing node state with
  | nil => trivial
  | cons form more ih =>
    exact Grounded.bind (grounded_build _) fun node after _ => ih node after

theorem grounded_chainSteps (hinner : Explains inner) (waiting : List OpenForm) (state : State) :
    ((Rule.chainSteps .standard inner (.binary .standard (.application inner) .relational)
      waiting).run state).Grounded := by
  induction hn : state.rest.length using Nat.strongRecOn generalizing waiting state with
  | _ n ih =>
    rw [Rule.chainSteps_eq, run_bind]
    simp only [current?, Outcome.andThen_ok]
    cases hrest : state.rest with
    | nil => exact grounded_fault (.unexpectedEnd hrest)
    | cons token rest =>
      simp only [List.head?_cons]
      split
      · exact Grounded.bind (grounded_binary hinner .relational state) fun node after _ =>
          grounded_closeAll waiting node after
      · next form hform =>
        refine Grounded.bind (grounded_form hinner hrest (standardForm_eq_iff.mp hform))
          fun opened after hrun => ?_
        exact ih _ (hn ▸ (form.rule inner).shortens state opened after hrun) _ _ rfl

end Rules

/-- An expression explains its faults when no more than `maxNesting` may be open in it. -/
theorem explains_expression {levels : Nat} (hlevels : levels ≤ maxNesting) :
    Explains (.expression .standard levels) := by
  have hreads (n : Nat) (hn : n ≤ maxNesting) (state : State) :
      ((Rule.expression .standard n).step.run state).Reads state fun tokens node rest =>
        Accepted .expression maxNesting tokens node ∧ Stops .relational rest :=
    (expression_reads n state).mono fun _ _ _ ⟨⟨hderives, hdepth⟩, hstops⟩ =>
      ⟨⟨hderives.mono hn, hdepth⟩, hstops⟩
  refine ⟨hreads levels hlevels, ?_⟩
  induction levels with
  | zero => exact fun state => grounded_nested fun _ => grounded_fault .tooNested
  | succ levels ih =>
    intro state
    have hinner : Explains (.expression .standard levels) :=
      ⟨hreads levels (Nat.le_of_succ_le hlevels), ih (Nat.le_of_succ_le hlevels)⟩
    rw [Rule.expression_succ]
    exact grounded_nested fun state => grounded_chainSteps hinner [] state

/-- An error cuts the tokens at its index, and there are grounds for it there. -/
theorem exists_grounds {tokens : List Token} {source : String} {error : Error}
    (h : parse tokens source = .error error) :
    ∃ passed rest, tokens = passed ++ rest ∧ passed.length = error.position.tokenIndex ∧
      Grounds passed rest error.cause error.position.line := by
  obtain ⟨-, fault, after, hrun, rfl⟩ := parse_eq_error_iff.mp h
  have hlocal := Entry.expression.localFrom_step .standard (.start tokens)
  obtain ⟨hindex, htokens⟩ := hlocal.of_error hrun
  have hgrounded : ((Entry.expression.step .standard).run (.start tokens)).Grounded :=
    (explains_expression (Nat.le_refl maxNesting)).grounded (.start tokens)
  rw [hrun] at hgrounded
  exact ⟨after.passed, after.rest, htokens.symm, State.length_passed.trans hindex.symm, hgrounded⟩

end MlFront
