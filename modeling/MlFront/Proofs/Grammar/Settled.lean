import MlFront.Proofs.Grammar.Complete
import MlFront.Proofs.Parser.Locality
import MlFront.Proofs.Parser.Tail

/-!
# Every phrase is parsed, unless a limit is met

`Derives.parsed` speaks of phrases that fit into the two limits. Here there is no such
condition: in front of tokens that cannot go on with it, a phrase is read whole and gives its
tree, or the parser meets a limit on the way, and nothing else can happen. `Settled` says
this for each category. It speaks of the plain recursion, where the forms around an
expression play no part.
-/

namespace MlFront

namespace Outcome

variable {α : Type} {outcome other third : Outcome α}

/-- The outcome is a fault, and its cause a limit of the parser. -/
def Limited (outcome : Outcome α) : Prop :=
  ∃ fault after, outcome = .error fault after ∧ fault.cause.isInternal = true

/-- The outcome is the other one, unless a limit is met. -/
def EqOrLimited (outcome other : Outcome α) : Prop :=
  outcome = other ∨ outcome.Limited

theorem EqOrLimited.trans (h : outcome.EqOrLimited other) (h' : other.EqOrLimited third) :
    outcome.EqOrLimited third := by
  rcases h with rfl | h
  · exact h'
  · exact .inr h

end Outcome

namespace ParseM

variable {α β : Type} {state after : State} {value : α}

theorem EqOrLimited.bind {step : ParseM α} (h : (step.run state).EqOrLimited (.ok value after))
    (next : α → ParseM β) :
    ((step >>= next).run state).EqOrLimited ((next value).run after) := by
  rw [run_bind]
  rcases h with h | ⟨fault, final, h, hinternal⟩
  · rw [h]
    exact .inl rfl
  · rw [h]
    exact .inr ⟨fault, final, rfl, hinternal⟩

/-- The next step goes on behind the tokens that the first one takes. -/
theorem EqOrLimited.bind_skip {step : ParseM α} {next : α → ParseM β} {taken rest : List Token}
    {outcome : Outcome β} (h : state.rest = taken ++ rest)
    (hrun : (step.run state).EqOrLimited (.ok value (state.skip taken.length)))
    (hnext : (state.skip taken.length).rest = rest →
      ((next value).run (state.skip taken.length)).EqOrLimited outcome) :
    ((step >>= next).run state).EqOrLimited outcome :=
  (EqOrLimited.bind hrun next).trans (hnext (by simp [h]))

theorem EqOrLimited.bind_one {step : ParseM α} {next : α → ParseM β} {token : Token}
    {rest : List Token} {outcome : Outcome β} (h : state.rest = token :: rest)
    (hrun : step.run state = .ok value (state.skip 1))
    (hnext : (state.skip 1).rest = rest →
      ((next value).run (state.skip 1)).EqOrLimited outcome) :
    ((step >>= next).run state).EqOrLimited outcome :=
  (EqOrLimited.bind (.inl hrun) next).trans (hnext (by simp [h]))

theorem eqOrLimited_build (node : Node) (state : State) :
    ((build node).run state).EqOrLimited (.ok node state) := by
  simp only [build]
  split
  · exact .inr ⟨_, _, rfl, rfl⟩
  · exact .inl rfl

theorem eqOrLimited_nested {step : ParseM α} {count : Nat}
    (h : state.nesting < maxNesting →
      (step.run { state with nesting := state.nesting + 1 }).EqOrLimited
        (.ok value (State.skip { state with nesting := state.nesting + 1 } count))) :
    ((descend >>= fun _ => closing step).run state).EqOrLimited
      (.ok value (state.skip count)) := by
  rw [run_bind]
  simp only [descend]
  split
  · exact .inr ⟨_, _, rfl, rfl⟩
  · next hlevel =>
    simp only [Outcome.andThen_ok, closing]
    rcases h (by omega) with h | ⟨fault, after, h, hinternal⟩
    · rw [h]
      exact .inl (by simp [State.closeOne, State.closeMany, State.skip])
    · rw [h]
      exact .inr ⟨fault, after.closeOne, rfl, hinternal⟩

end ParseM

namespace Grammar

open ParseM

/-- In front of a rest that cannot go on with it, the phrase is read whole and gives the
node, unless a limit is met. -/
def Settled : Category → List Token → Node → Prop
  | .expression, tokens, node =>
    ∀ state rest, state.rest = tokens ++ rest → state.nesting ≤ maxNesting →
      Stops .relational rest →
      ((plain .standard).run state).EqOrLimited (.ok node (state.skip tokens.length))
  | .operation power, tokens, node =>
    ∀ minimum state rest, minimum.rank ≤ power.rank → state.rest = tokens ++ rest →
      state.nesting ≤ maxNesting → Stops power.tighter rest →
      ((Rule.binary .standard (operandRule state.levelsLeft) minimum).step.run state).EqOrLimited
        ((Rule.foldSteps .standard (operandRule state.levelsLeft) minimum node).run
          (state.skip tokens.length))
  | .application, tokens, node =>
    ∀ state rest, state.rest = tokens ++ rest → state.nesting ≤ maxNesting → AfterOperand rest →
      ((operandRule state.levelsLeft).step.run state).EqOrLimited
        (.ok node (state.skip tokens.length))
  | .primary, tokens, node =>
    ∀ state rest, state.rest = tokens ++ rest → state.nesting ≤ maxNesting →
      ((Rule.primary (.expression .standard state.levelsLeft)).step.run state).EqOrLimited
        (.ok node (state.skip tokens.length))

section Rules

variable {state : State} {rest tokens : List Token} {node : Node}

theorem nesting_add_levelsLeft_le (h : state.nesting ≤ maxNesting) :
    state.nesting + state.levelsLeft ≤ maxNesting := by
  unfold State.levelsLeft
  omega

theorem Settled.run_expression (h : Settled .expression tokens node)
    (hrest : state.rest = tokens ++ rest) (hstops : Stops .relational rest) :
    ((Rule.expression .standard state.levelsLeft).step.run state).EqOrLimited
      (.ok node (state.skip tokens.length)) := by
  show ((Entry.expression.step .standard).run state).EqOrLimited _
  rw [Entry.step_expression, inside_eq]
  exact eqOrLimited_nested fun hlevel => h _ rest hrest hlevel hstops

/-- An operation is read whole in front of what a run of its power stops at. -/
theorem Settled.run_binary {power : Power} (h : Settled (.operation power) tokens node)
    (hrest : state.rest = tokens ++ rest) (hlevel : state.nesting ≤ maxNesting)
    (hstops : Stops power rest) :
    ((Rule.binary .standard (operandRule state.levelsLeft) power).step.run state).EqOrLimited
      (.ok node (state.skip tokens.length)) := by
  refine (h power state rest (Nat.le_refl _) hrest hlevel hstops.tighter).trans (.inl ?_)
  exact run_foldSteps_of_stops (by simpa [hrest] using hstops)

/-! ## Expressions -/

/-- In front of its last expression, the form is read up to that expression, unless a limit
is met. -/
def SettledForm (form : Form) (tokens : List Token) (opened : OpenForm) : Prop :=
  (∃ token more, tokens = token :: more ∧ token.text = openerOf form) ∧
    ∀ state rest, state.rest = tokens ++ rest → state.nesting ≤ maxNesting → rest ≠ [] →
      ((form.step .standard).run state).EqOrLimited (.ok opened (state.skip tokens.length))

theorem SettledForm.close {form : Form} {body : List Token} {opened : OpenForm}
    (h : SettledForm form tokens opened) (hsome : body ≠ [])
    (hbody : Settled .expression body node) :
    Settled .expression (tokens ++ body) (opened.close node) := by
  obtain ⟨⟨token, more, rfl, hform⟩, hrun⟩ := h
  intro state rest hrest hlevel hstops
  rw [List.append_assoc] at hrest
  have hkind : Tables.standard.form token.kind = some form := standardForm_eq_iff.mpr hform
  rw [plain_eq, run_bind]
  simp only [current?, Outcome.andThen_ok, hrest, List.cons_append, List.head?_cons, hkind]
  refine EqOrLimited.bind_skip hrest (hrun state _ hrest hlevel (by simp [hsome])) fun hrest => ?_
  refine EqOrLimited.bind_skip hrest (hbody _ _ hrest hlevel hstops) fun _ => ?_
  rw [State.skip_skip, ← List.length_append]
  exact eqOrLimited_build _ _

theorem settled_letIn {letWord name equals inWord : Token} {value : List Token} {valueNode : Node}
    (hlet : letWord.text = "let") (hname : name.isNameShaped = true) (hequals : equals.text = "=")
    (hvalue : Settled .expression value valueNode) (hin : inWord.text = "in") :
    SettledForm .letIn (letWord :: name :: equals :: (value ++ [inWord]))
      (.letIn name.text valueNode) := by
  refine ⟨⟨letWord, _, rfl, hlet⟩, fun state rest hrest _ _ => ?_⟩
  simp only [List.cons_append, List.append_assoc, List.nil_append] at hrest
  show ((Rule.letIn (.expression .standard state.levelsLeft)).step.run state).EqOrLimited _
  refine (EqOrLimited.bind (.inl run_currentLine) _).trans ?_
  refine EqOrLimited.bind_one hrest (run_expect hrest hlet) fun hrest => ?_
  refine EqOrLimited.bind_one hrest (run_nameOr hrest hname) fun hrest => ?_
  refine EqOrLimited.bind_one hrest (run_expectOr hrest hequals) fun hrest => ?_
  refine EqOrLimited.bind_skip hrest (hvalue.run_expression hrest
    (stops_of_mem_terminators (by simp [hin, terminators, closers]))) fun hrest => ?_
  refine EqOrLimited.bind_one hrest (run_expectOr hrest hin) fun _ => .inl ?_
  simp [Nat.add_comm, Nat.add_left_comm]

theorem settled_ifThenElse {ifWord thenWord elseWord : Token} {condition first : List Token}
    {conditionNode firstNode : Node} (hif : ifWord.text = "if")
    (hcondition : Settled .expression condition conditionNode) (hthen : thenWord.text = "then")
    (hfirst : Settled .expression first firstNode) (helse : elseWord.text = "else") :
    SettledForm .ifThenElse (ifWord :: (condition ++ thenWord :: (first ++ [elseWord])))
      (.ifThenElse conditionNode firstNode) := by
  refine ⟨⟨ifWord, _, rfl, hif⟩, fun state rest hrest _ _ => ?_⟩
  simp only [List.cons_append, List.append_assoc, List.nil_append] at hrest
  show ((Rule.ifThenElse (.expression .standard state.levelsLeft)).step.run state).EqOrLimited _
  refine (EqOrLimited.bind (.inl run_currentLine) _).trans ?_
  refine EqOrLimited.bind_one hrest (run_expect hrest hif) fun hrest => ?_
  refine EqOrLimited.bind_skip hrest (hcondition.run_expression hrest
    (stops_of_mem_terminators (by simp [hthen, terminators, closers]))) fun hrest => ?_
  refine EqOrLimited.bind_one hrest (run_expectOr hrest hthen) fun hrest => ?_
  refine EqOrLimited.bind_skip hrest (hfirst.run_expression hrest
    (stops_of_mem_terminators (by simp [helse, terminators, closers]))) fun hrest => ?_
  refine EqOrLimited.bind_one hrest (run_expectOr hrest helse) fun _ => .inl ?_
  simp [Nat.add_comm, Nat.add_left_comm]

/-- There is no expression before the last one of a function, and so no limit is met. -/
theorem settled_function {fnWord arrow : Token} {parameters : List Token}
    (hfn : fnWord.text = "fn") (hsome : parameters ≠ [])
    (hparameters : ∀ token ∈ parameters, token.isNameShaped = true) (harrow : arrow.text = "->") :
    SettledForm .function (fnWord :: (parameters ++ [arrow]))
      (.function (parameters.map (·.text))) := by
  have hparsed : ParsedForm .function 0 _ _ := parsed_function hfn hsome hparameters harrow
  refine ⟨hparsed.1, fun state rest hrest hlevel hmore => .inl ?_⟩
  have hdepth : ((OpenForm.function (parameters.map (·.text))).close (.identifier "x")).depth ≤
      maxDepth := by
    show 2 ≤ maxDepth
    decide
  exact hparsed.2 state rest (.identifier "x") hrest hmore hlevel hdepth

theorem Settled.expression (h : Settled (.operation .relational) tokens node) (hsome : tokens ≠ [])
    (hopen : ¬ StartsWith openers tokens) : Settled .expression tokens node := by
  intro state rest hrest hlevel hstops
  obtain ⟨token, more, rfl⟩ := List.exists_cons_of_ne_nil hsome
  have hkind : Tables.standard.form token.kind = none :=
    standardForm_eq_none_iff.mpr (by simpa using hopen)
  rw [plain_eq, run_bind]
  simp only [current?, Outcome.andThen_ok, hrest, List.cons_append, List.head?_cons, hkind]
  show ((Rule.binary .standard (operandRule state.levelsLeft) .relational).step.run
    state).EqOrLimited _
  exact h.run_binary hrest hlevel hstops

/-! ## Runs of operators -/

theorem Settled.binary {power : Power} {operator : Token} {left right : List Token}
    {leftNode rightNode : Node} (hleft : Settled (.operation power) left leftNode)
    (hoperator : operator.text ∈ operators power)
    (hright : Settled (.operation power.tighter) right rightNode) (hsome : right ≠ []) :
    Settled (.operation power) (left ++ operator :: right)
      (.binary operator.text leftNode rightNode) := by
  intro minimum state rest hle hrest hlevel hstops
  rw [List.append_assoc, List.cons_append] at hrest
  have hpower := standardPower_eq_iff.mpr hoperator
  have hbehind : Stops power.tighter (operator :: (right ++ rest)) := by
    intro token hhead
    simp only [List.head?_cons, Option.mem_def, Option.some.injEq] at hhead
    exact .inr ⟨power, hhead ▸ hpower, power_lt_tighter hoperator⟩
  refine (hleft minimum state _ hle hrest hlevel hbehind).trans ?_
  rw [Rule.foldSteps_eq]
  have hrest' : (state.skip left.length).rest = operator :: (right ++ rest) := by simp [hrest]
  have hlt : ¬ power < minimum := by
    rw [Power.lt_iff]
    omega
  refine (EqOrLimited.bind (.inl (run_operator? hrest' hpower)) _).trans ?_
  simp only [if_neg hlt]
  refine EqOrLimited.bind_one hrest' (run_advance hrest') fun hrest => ?_
  refine (EqOrLimited.bind (.inl (run_more (by rw [hrest]; simp [hsome]))) _).trans ?_
  refine EqOrLimited.bind_skip hrest (hright.run_binary hrest hlevel hstops) fun _ => ?_
  refine (EqOrLimited.bind (eqOrLimited_build _ _) _).trans (.inl ?_)
  simp [Nat.add_comm, Nat.add_left_comm]

theorem Settled.tighter {power : Power} (h : Settled (.operation power.tighter) tokens node) :
    Settled (.operation power) tokens node := by
  intro minimum state rest hle hrest hlevel hstops
  have hrank : power.rank ≤ power.tighter.rank := by cases power <;> decide
  exact h minimum state rest (Nat.le_trans hle hrank) hrest hlevel hstops.tighter

theorem Settled.operand (h : Settled .application tokens node) :
    Settled (.operation .primary) tokens node := by
  intro minimum state rest _ hrest hlevel hstops
  rw [Rule.binary_step]
  exact EqOrLimited.bind (h state rest hrest hlevel hstops.afterOperand) _

/-! ## Applications -/

theorem settled_argumentSteps (arguments : List (List Token × Node))
    (hgoesOn : ∀ argument ∈ arguments, ∃ token more, argument.1 = token :: more ∧
      (token.isTerminator || token.isBinaryOperator) = false)
    (hsettled : ∀ argument ∈ arguments, Settled .primary argument.1 argument.2)
    (done : List Node) (hrest : state.rest = arguments.flatMap Prod.fst ++ rest)
    (hlevel : state.nesting ≤ maxNesting) (hafter : AfterOperand rest) :
    ((Rule.argumentSteps (.primary (.expression .standard state.levelsLeft)) done).run
      state).EqOrLimited (.ok (done.reverse ++ arguments.map Prod.snd)
        (state.skip (arguments.flatMap Prod.fst).length)) := by
  induction arguments generalizing done state with
  | nil =>
    exact .inl (run_argumentSteps [] (by simp) (by simp) (by simp) done hrest hafter
      (nesting_add_levelsLeft_le hlevel))
  | cons argument arguments ih =>
    obtain ⟨⟨token, more, hfirst, hgo⟩, hgoesOn⟩ := List.forall_mem_cons.mp hgoesOn
    obtain ⟨hsettled, hall⟩ := List.forall_mem_cons.mp hsettled
    rw [List.flatMap_cons, List.append_assoc] at hrest
    have hhead : state.rest.head? = some token := by simp [hrest, hfirst]
    rw [Rule.argumentSteps_eq, run_bind]
    simp only [current?, Outcome.andThen_ok, hhead, hgo, Bool.false_eq_true, if_false]
    refine EqOrLimited.bind_skip hrest (hsettled state _ hrest hlevel) fun hrest => ?_
    refine (ih hgoesOn hall (argument.2 :: done) hrest hlevel).trans (.inl ?_)
    simp

theorem Settled.callee (h : Settled .primary tokens node) : Settled .application tokens node := by
  intro state rest hrest hlevel hafter
  refine EqOrLimited.bind_skip hrest (h state rest hrest hlevel) fun hrest => ?_
  exact EqOrLimited.bind (settled_argumentSteps [] (by simp) (by simp) [] hrest hlevel hafter) _

theorem Settled.apply {callee : List Token} {calleeNode : Node}
    {arguments : List (List Token × Node)} (hcallee : Settled .primary callee calleeNode)
    (hsome : arguments ≠ [])
    (hgoesOn : ∀ argument ∈ arguments, ∃ token more, argument.1 = token :: more ∧
      (token.isTerminator || token.isBinaryOperator) = false)
    (harguments : ∀ argument ∈ arguments, Settled .primary argument.1 argument.2) :
    Settled .application (callee ++ arguments.flatMap Prod.fst)
      (.apply calleeNode (arguments.map Prod.snd)) := by
  intro state rest hrest hlevel hafter
  rw [List.append_assoc] at hrest
  refine EqOrLimited.bind_skip hrest (hcallee state _ hrest hlevel) fun hrest => ?_
  refine EqOrLimited.bind_skip hrest (settled_argumentSteps arguments hgoesOn harguments [] hrest
    hlevel hafter) fun _ => ?_
  obtain ⟨argument, more, rfl⟩ := List.exists_cons_of_ne_nil hsome
  rw [State.skip_skip, ← List.length_append]
  exact eqOrLimited_build _ _

/-! ## Primaries -/

/-- A phrase of one token meets no limit. -/
theorem Settled.of_parsed (h : ∀ levels, Parsed .primary levels tokens node)
    (hdepth : node.depth ≤ maxDepth) : Settled .primary tokens node := by
  intro state rest hrest hlevel
  exact .inl (h state.levelsLeft state rest hrest (nesting_add_levelsLeft_le hlevel) hdepth)

theorem Settled.group {openParen closeParen : Token} (hopen : openParen.text = "(")
    (h : Settled .expression tokens node) (hclose : closeParen.text = ")") :
    Settled .primary (openParen :: (tokens ++ [closeParen])) node := by
  intro state rest hrest _
  simp only [List.cons_append, List.append_assoc, List.nil_append] at hrest
  rw [Rule.primary_step]
  simp only [run_bind, current?, Outcome.andThen_ok, hrest, List.head?_cons,
    Token.kind_eq_openParen_iff.mpr hopen]
  refine EqOrLimited.bind_one hrest (run_expect hrest hopen) fun hrest => ?_
  refine EqOrLimited.bind_skip hrest (h.run_expression hrest
    (stops_of_mem_terminators (by simp [hclose, terminators]))) fun hrest => ?_
  refine EqOrLimited.bind_one hrest (run_expectOr hrest hclose) fun _ => .inl ?_
  simp [Nat.add_comm, Nat.add_left_comm]

end Rules

/-! ## The parser and the phrases -/

/-- Every phrase is parsed, unless a limit is met. -/
theorem Derives.settled {category : Category} {levels : Nat} {tokens : List Token} {node : Node}
    (h : Derives category levels tokens node) : Settled category tokens node := by
  induction h with
  | letIn hlet hname hequals _ hin hbody ihvalue ihbody =>
    simpa [OpenForm.close] using
      (settled_letIn hlet hname hequals ihvalue hin).close hbody.ne_nil ihbody
  | ifThenElse hif _ hthen _ helse hlast ihcondition ihfirst ihlast =>
    simpa [OpenForm.close] using
      (settled_ifThenElse hif ihcondition hthen ihfirst helse).close hlast.ne_nil ihlast
  | function hfn hsome hparameters harrow hbody ihbody =>
    simpa [OpenForm.close] using
      (settled_function hfn hsome hparameters harrow).close hbody.ne_nil ihbody
  | operation h hopen ih => exact ih.expression h.ne_nil hopen
  | binary _ hoperator hright ihleft ihright => exact ihleft.binary hoperator ihright hright.ne_nil
  | tighter _ _ ih => exact ih.tighter
  | operand _ ih => exact ih.operand
  | callee _ ih => exact ih.callee
  | apply _ hsome hclose harguments ihcallee iharguments =>
    exact ihcallee.apply hsome
      (fun argument hmem => (harguments argument hmem).goesOn (hclose argument hmem)) iharguments
  | number h => exact .of_parsed (fun _ => parsed_number h) one_le_maxDepth
  | boolean h => exact .of_parsed (fun _ => parsed_boolean h) one_le_maxDepth
  | name hname hword => exact .of_parsed (fun _ => parsed_name hname hword) one_le_maxDepth
  | group hopen _ hclose ih => exact ih.group hopen hclose

/-- A program of the grammar is parsed to its tree, however deep it is, or the parser meets
one of its limits. -/
theorem Derives.parse_eq_ok_or_isInternal {levels : Nat} {tokens : List Token} {node : Node}
    (h : Derives .expression levels tokens node) (source : String) :
    parse tokens source = .ok (some node) ∨
      ∃ error, parse tokens source = .error error ∧ error.cause.isInternal = true := by
  have hrest : (State.start tokens).rest = tokens ++ [] := (List.append_nil tokens).symm
  have hrun : ((Entry.expression.step .standard).run (.start tokens)).EqOrLimited
      (.ok node ((State.start tokens).skip tokens.length)) :=
    h.settled.run_expression hrest (by simp [Stops])
  rcases hrun with hrun | ⟨fault, after, hrun, hinternal⟩
  · refine .inl (parse_eq_ok_iff.mpr ?_)
    unfold parseTokens
    rw [hrun]
    simp [h.ne_nil]
  · exact .inr ⟨_, parse_eq_error_iff.mpr ⟨h.ne_nil, fault, after, hrun, rfl⟩, hinternal⟩

end Grammar
end MlFront
