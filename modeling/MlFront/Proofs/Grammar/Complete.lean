import MlFront.Proofs.Grammar.Sound
import MlFront.Proofs.Tree.Depth

/-!
# Every phrase is parsed

The other direction: in front of tokens that cannot go on with it, a phrase that
fits into the two limits is read whole and gives its tree. `Parsed` says this for
each category. A run of operators is the one case where the parser's way differs
from the grammar's: the grammar takes the last operator first, the parser folds
them from the left, so `Parsed` says of an operation that reading it is the same
as going on to fold behind it.

`parseTokens_eq_ok_iff` puts both directions together.
-/

namespace MlFront.Grammar

open ParseM

variable {α β : Type} {state : State} {rest : List Token}

/-! ## Steps that succeed -/

theorem run_bind_of_ok {step : ParseM α} {next : α → ParseM β} {value : α} {after : State}
    (h : step.run state = .ok value after) : (step >>= next).run state = (next value).run after := by
  rw [run_bind, h, Outcome.andThen_ok]

/-- The next step goes on behind the tokens that the first one has taken. -/
theorem run_bind_skip {step : ParseM α} {next : α → ParseM β} {value : α} {taken : List Token}
    {outcome : Outcome β} (h : state.rest = taken ++ rest)
    (hrun : step.run state = .ok value (state.skip taken.length))
    (hnext : (state.skip taken.length).rest = rest →
      (next value).run (state.skip taken.length) = outcome) :
    (step >>= next).run state = outcome :=
  (run_bind_of_ok hrun).trans (hnext (by simp [h]))

theorem run_bind_one {step : ParseM α} {next : α → ParseM β} {value : α} {token : Token}
    {outcome : Outcome β} (h : state.rest = token :: rest)
    (hrun : step.run state = .ok value (state.skip 1))
    (hnext : (state.skip 1).rest = rest → (next value).run (state.skip 1) = outcome) :
    (step >>= next).run state = outcome :=
  (run_bind_of_ok hrun).trans (hnext (by simp [h]))

theorem run_currentLine : currentLine.run state = .ok state.line state := rfl

theorem run_expectOr {text : String} {fault : State → Fault} {token : Token}
    (h : state.rest = token :: rest) (htext : token.text = text) :
    (expectOr text fault).run state = .ok token (state.skip 1) := by
  simp [expectOr, h, htext, State.next_eq_skip]

theorem run_expect {text : String} {token : Token} (h : state.rest = token :: rest)
    (htext : token.text = text) : (expect text).run state = .ok token (state.skip 1) :=
  run_expectOr h htext

theorem run_nameOr {cause : Cause} {line : Nat} {token : Token} (h : state.rest = token :: rest)
    (hname : token.isNameShaped = true) :
    (nameOr cause line).run state = .ok token.text (state.skip 1) := by
  simp [nameOr, h, hname, State.next_eq_skip]

theorem run_parameters {names : List Token} {token : Token} (h : state.rest = names ++ token :: rest)
    (hnames : ∀ name ∈ names, name.isNameShaped = true) (htoken : token.isNameShaped = false) :
    parameters.run state = .ok (names.map (·.text)) (state.skip names.length) := by
  have htake : state.rest.takeWhile (·.isParameter) = names := by
    rw [h, List.takeWhile_append_of_pos (by simpa [Token.isParameter_eq] using hnames)]
    simp [Token.isParameter_eq, htoken]
  simp [parameters, htake]

theorem run_arrow {names : List String} {line : Nat} {token : Token}
    (h : state.rest = token :: rest) (hnames : names ≠ []) (harrow : token.text = "->")
    (hrest : rest ≠ []) : (arrow names line).run state = .ok () (state.skip 1) := by
  simp [arrow, h, hnames, hrest, Token.kind_eq_arrow_iff, harrow, State.next_eq_skip]

theorem run_build {node : Node} (h : node.depth ≤ maxDepth) :
    (build node).run state = .ok node state := by
  simp [build, Nat.not_lt.mpr h]

theorem run_nested {step : ParseM α} {value : α} {count : Nat} (hlevel : state.nesting < maxNesting)
    (h : step.run { state with nesting := state.nesting + 1 } =
      .ok value (State.skip { state with nesting := state.nesting + 1 } count)) :
    (descend >>= fun _ => closing step).run state = .ok value (state.skip count) := by
  have hdescend : descend.run state = .ok () { state with nesting := state.nesting + 1 } := by
    unfold descend
    exact if_neg (Nat.not_lt.mpr hlevel)
  rw [run_bind_of_ok hdescend]
  simp [closing, h, State.closeOne, State.closeMany, State.skip]

theorem run_operator? {tables : Tables} {token : Token} {power : Power}
    (h : state.rest = token :: rest) (hpower : tables.power token.kind = some power) :
    (ParseM.operator? tables).run state = .ok (some (token.text, power)) state := by
  simp [ParseM.operator?, State.operator?, h, hpower]

theorem run_advance {token : Token} (h : state.rest = token :: rest) :
    advance.run state = .ok (some token) (state.skip 1) := by
  simp [advance, h, State.next_eq_skip]

theorem run_more {cause : Cause} (h : state.rest ≠ []) :
    (more cause).run state = .ok () state := by
  simp [more, h]

theorem depth_le_closed (forms : List OpenForm) (node : Node) :
    node.depth ≤ (closed forms node).depth := by
  induction forms generalizing node with
  | nil => exact Nat.le_refl _
  | cons form more ih => exact Nat.le_trans (Nat.le_of_lt (form.depth_lt_close node)) (ih _)

theorem run_closeAll (forms : List OpenForm) (node : Node)
    (h : (closed forms node).depth ≤ maxDepth) :
    (Rule.closeAll forms node).run state = .ok (closed forms node) state := by
  induction forms generalizing node with
  | nil => rfl
  | cons form more ih =>
    rw [Rule.closeAll, run_bind_of_ok (run_build (Nat.le_trans (depth_le_closed more _) h))]
    exact ih _ h

/-! ## Phrases in front of a rest -/

/-- The rule for the operands of expressions inside `levels` levels. -/
def operandRule (levels : Nat) : Rule Node :=
  .application (.expression .standard levels)

/-- Reading the tokens as an expression, behind forms that wait for it. -/
def chainRun (levels : Nat) (waiting : List OpenForm) : ParseM Node :=
  Rule.chainSteps .standard (.expression .standard levels)
    (.binary .standard (operandRule levels) .relational) waiting

/-- In front of a rest that cannot go on with it, the phrase is read whole and
gives the node, provided that the limits leave room for it. -/
def Parsed : Category → Nat → List Token → Node → Prop
  | .expression, levels, tokens, node =>
    ∃ inside, levels = inside + 1 ∧ ∀ waiting state rest, state.rest = tokens ++ rest →
      Stops .relational rest → state.nesting + inside ≤ maxNesting →
      (closed waiting node).depth ≤ maxDepth →
      (chainRun inside waiting).run state =
        .ok (closed waiting node) (state.skip tokens.length)
  | .operation power, levels, tokens, node =>
    ∀ minimum state rest, minimum.rank ≤ power.rank → state.rest = tokens ++ rest →
      Stops power.tighter rest → state.nesting + levels ≤ maxNesting → node.depth ≤ maxDepth →
      (Rule.binary .standard (operandRule levels) minimum).step.run state =
        (Rule.foldSteps .standard (operandRule levels) minimum node).run
          (state.skip tokens.length)
  | .application, levels, tokens, node =>
    ∀ state rest, state.rest = tokens ++ rest → AfterOperand rest →
      state.nesting + levels ≤ maxNesting → node.depth ≤ maxDepth →
      (operandRule levels).step.run state = .ok node (state.skip tokens.length)
  | .primary, levels, tokens, node =>
    ∀ state rest, state.rest = tokens ++ rest → state.nesting + levels ≤ maxNesting →
      node.depth ≤ maxDepth →
      (Rule.primary (.expression .standard levels)).step.run state =
        .ok node (state.skip tokens.length)

theorem Parsed.run_expression {levels : Nat} {tokens : List Token} {node : Node}
    (h : Parsed .expression levels tokens node) (hrest : state.rest = tokens ++ rest)
    (hstops : Stops .relational rest) (hlevel : state.nesting + levels ≤ maxNesting)
    (hdepth : node.depth ≤ maxDepth) :
    (Rule.expression .standard levels).step.run state = .ok node (state.skip tokens.length) := by
  obtain ⟨inside, rfl, h⟩ := h
  rw [Rule.expression_succ]
  refine run_nested (by omega) ?_
  exact h [] { state with nesting := state.nesting + 1 } rest hrest hstops (by simp; omega) hdepth

theorem power_lt_tighter {power : Power} {operator : String} (h : operator ∈ operators power) :
    power < power.tighter := by
  cases power <;> first | decide | simp [operators] at h

theorem Stops.tighter {minimum : Power} (h : Stops minimum rest) : Stops minimum.tighter rest := by
  intro token hhead
  refine (h token hhead).imp_right ?_
  rintro ⟨power, hpower, hlt⟩
  have hrank : minimum.rank ≤ 3 := by cases minimum <;> decide
  refine ⟨power, hpower, ?_⟩
  rw [Power.lt_iff] at hlt ⊢
  rw [Power.rank_tighter]
  omega

theorem Stops.isTerminator (h : Stops .relational rest) :
    ∀ token ∈ rest.head?, token.isTerminator = true := by
  intro token hhead
  rcases h token hhead with hend | ⟨power, -, hlt⟩
  · exact hend
  · exact absurd hlt (Nat.not_lt_zero _)

/-- In front of a rest that a run of operators stops at, folding is over. -/
theorem run_foldSteps_of_stops {operand : Rule Node} {minimum : Power} {left : Node}
    (h : Stops minimum state.rest) :
    (Rule.foldSteps .standard operand minimum left).run state = .ok left state := by
  rw [Rule.foldSteps_eq, run_bind]
  simp only [operator?, Outcome.andThen_ok]
  cases hop : state.operator? .standard with
  | none => rfl
  | some found =>
    obtain ⟨operator, power⟩ := found
    obtain ⟨token, more, hrest, rfl, hpower⟩ := State.operator?_eq_some hop
    simp only
    rcases h token (by simp [hrest]) with hend | ⟨q, hq, hlt⟩
    · rw [not_isTerminator_of_power hpower] at hend
      cases hend
    · cases hq.symm.trans hpower
      simp [hlt]

/-- An operation is read whole in front of what a run of its power stops at. -/
theorem Parsed.run_binary {power : Power} {levels : Nat} {tokens : List Token} {node : Node}
    (h : Parsed (.operation power) levels tokens node) (hrest : state.rest = tokens ++ rest)
    (hstops : Stops power rest) (hlevel : state.nesting + levels ≤ maxNesting)
    (hdepth : node.depth ≤ maxDepth) :
    (Rule.binary .standard (operandRule levels) power).step.run state =
      .ok node (state.skip tokens.length) := by
  rw [h power state rest (Nat.le_refl _) hrest hstops.tighter hlevel hdepth]
  exact run_foldSteps_of_stops (by simpa [hrest] using hstops)

/-! ## Expressions -/

theorem chainRun_form {levels : Nat} {waiting : List OpenForm} {token : Token} {form : Form}
    {opened : OpenForm} {after : State} (h : state.rest.head? = some token)
    (hform : token.text = openerOf form)
    (hrun : (form.rule (.expression .standard levels)).step.run state = .ok opened after) :
    (chainRun levels waiting).run state = (chainRun levels (opened :: waiting)).run after := by
  have hkind : Tables.standard.form token.kind = some form := standardForm_eq_iff.mpr hform
  rw [chainRun, Rule.chainSteps_eq, run_bind]
  simp only [current?, Outcome.andThen_ok, h, hkind]
  exact run_bind_of_ok hrun

theorem chainRun_operation {levels : Nat} {waiting : List OpenForm} {token : Token} {node : Node}
    {after : State} (h : state.rest.head? = some token) (hform : token.text ∉ openers)
    (hrun : (Rule.binary .standard (operandRule levels) .relational).step.run state =
      .ok node after) :
    (chainRun levels waiting).run state = (Rule.closeAll waiting node).run after := by
  have hkind : Tables.standard.form token.kind = none := standardForm_eq_none_iff.mpr hform
  rw [chainRun, Rule.chainSteps_eq, run_bind]
  simp only [current?, Outcome.andThen_ok, h, hkind]
  exact run_bind_of_ok hrun

theorem stops_of_mem_terminators {power : Power} {token : Token} (h : token.text ∈ terminators) :
    Stops power (token :: rest) := by
  intro found hfound
  simp only [List.head?_cons, Option.mem_def, Option.some.injEq] at hfound
  exact .inl (hfound ▸ isTerminator_iff.mpr h)

section Forms

variable {levels : Nat}

/-- In front of its last expression, the form is read up to that expression. -/
def ParsedForm (form : Form) (levels : Nat) (tokens : List Token) (opened : OpenForm) : Prop :=
  (∃ token more, tokens = token :: more ∧ token.text = openerOf form) ∧
    ∀ state rest node, state.rest = tokens ++ rest → rest ≠ [] →
      state.nesting + levels ≤ maxNesting → (opened.close node).depth ≤ maxDepth →
      (form.rule (.expression .standard levels)).step.run state =
        .ok opened (state.skip tokens.length)

theorem ParsedForm.close {form : Form} {tokens body : List Token} {opened : OpenForm} {node : Node}
    (h : ParsedForm form levels tokens opened) (hsome : body ≠ [])
    (hbody : Parsed .expression (levels + 1) body node) :
    Parsed .expression (levels + 1) (tokens ++ body) (opened.close node) := by
  obtain ⟨⟨token, more, rfl, hform⟩, hrun⟩ := h
  obtain ⟨_, hinside, hbody⟩ := hbody
  cases hinside
  refine ⟨levels, rfl, fun waiting state rest hrest hstops hlevel hdepth => ?_⟩
  rw [List.append_assoc] at hrest
  have hopened := hrun state (body ++ rest) node hrest (by simp [hsome]) hlevel
    (Nat.le_trans (depth_le_closed waiting _) hdepth)
  rw [chainRun_form (by rw [hrest]; rfl) hform hopened]
  have hclosed := hbody (opened :: waiting) (state.skip (token :: more).length) rest
    (by simp [hrest]) hstops hlevel hdepth
  rw [State.skip_skip, ← List.length_append] at hclosed
  exact hclosed

theorem parsed_letIn {letWord name equals inWord : Token} {value : List Token} {valueNode : Node}
    (hlet : letWord.text = "let") (hname : name.isNameShaped = true) (hequals : equals.text = "=")
    (hvalue : Parsed .expression levels value valueNode) (hin : inWord.text = "in") :
    ParsedForm .letIn levels (letWord :: name :: equals :: (value ++ [inWord]))
      (.letIn name.text valueNode) := by
  refine ⟨⟨letWord, _, rfl, hlet⟩, fun state rest node hrest _ hlevel hdepth => ?_⟩
  simp only [List.cons_append, List.append_assoc, List.nil_append] at hrest
  simp only [OpenForm.close, Node.depth_letBind] at hdepth
  refine (run_bind_of_ok run_currentLine).trans ?_
  refine run_bind_one hrest (run_expect hrest hlet) fun hrest => ?_
  refine run_bind_one hrest (run_nameOr hrest hname) fun hrest => ?_
  refine run_bind_one hrest (run_expectOr hrest hequals) fun hrest => ?_
  refine run_bind_skip hrest (hvalue.run_expression hrest
    (stops_of_mem_terminators (by simp [hin, terminators, closers])) hlevel (by omega))
    fun hrest => ?_
  refine run_bind_one hrest (run_expectOr hrest hin) fun _ => ?_
  simp [Nat.add_comm, Nat.add_left_comm]

theorem parsed_ifThenElse {ifWord thenWord elseWord : Token} {condition first : List Token}
    {conditionNode firstNode : Node} (hif : ifWord.text = "if")
    (hcondition : Parsed .expression levels condition conditionNode)
    (hthen : thenWord.text = "then") (hfirst : Parsed .expression levels first firstNode)
    (helse : elseWord.text = "else") :
    ParsedForm .ifThenElse levels (ifWord :: (condition ++ thenWord :: (first ++ [elseWord])))
      (.ifThenElse conditionNode firstNode) := by
  refine ⟨⟨ifWord, _, rfl, hif⟩, fun state rest node hrest _ hlevel hdepth => ?_⟩
  simp only [List.cons_append, List.append_assoc, List.nil_append] at hrest
  simp only [OpenForm.close, Node.depth_branch] at hdepth
  refine (run_bind_of_ok run_currentLine).trans ?_
  refine run_bind_one hrest (run_expect hrest hif) fun hrest => ?_
  refine run_bind_skip hrest (hcondition.run_expression hrest
    (stops_of_mem_terminators (by simp [hthen, terminators, closers])) hlevel (by omega))
    fun hrest => ?_
  refine run_bind_one hrest (run_expectOr hrest hthen) fun hrest => ?_
  refine run_bind_skip hrest (hfirst.run_expression hrest
    (stops_of_mem_terminators (by simp [helse, terminators, closers])) hlevel (by omega))
    fun hrest => ?_
  refine run_bind_one hrest (run_expectOr hrest helse) fun _ => ?_
  simp [Nat.add_comm, Nat.add_left_comm]

theorem parsed_function {fnWord arrow : Token} {parameters : List Token} (hfn : fnWord.text = "fn")
    (hsome : parameters ≠ []) (hparameters : ∀ token ∈ parameters, token.isNameShaped = true)
    (harrow : arrow.text = "->") :
    ParsedForm .function levels (fnWord :: (parameters ++ [arrow]))
      (.function (parameters.map (·.text))) := by
  refine ⟨⟨fnWord, _, rfl, hfn⟩, fun state rest node hrest hmore _ _ => ?_⟩
  simp only [List.cons_append, List.append_assoc, List.nil_append] at hrest
  have hshape : arrow.isNameShaped = false := by
    rw [Token.isNameShaped, harrow]
    decide
  refine (run_bind_of_ok run_currentLine).trans ?_
  refine run_bind_one hrest (run_expect hrest hfn) fun hrest => ?_
  refine run_bind_skip hrest (run_parameters hrest hparameters hshape) fun hrest => ?_
  refine run_bind_one hrest
    (run_arrow hrest (by simpa using hsome) harrow hmore) fun _ => ?_
  simp [Nat.add_comm, Nat.add_left_comm]

end Forms

theorem Parsed.expression {levels : Nat} {tokens : List Token} {node : Node}
    (h : Parsed (.operation .relational) levels tokens node) (hsome : tokens ≠ [])
    (hopen : ¬ StartsWith openers tokens) : Parsed .expression (levels + 1) tokens node := by
  refine ⟨levels, rfl, fun waiting state rest hrest hstops hlevel hdepth => ?_⟩
  obtain ⟨token, more, rfl⟩ := List.exists_cons_of_ne_nil hsome
  have hrun := h.run_binary hrest hstops hlevel (Nat.le_trans (depth_le_closed waiting node) hdepth)
  rw [chainRun_operation (by rw [hrest]; rfl) (by simpa using hopen) hrun]
  exact run_closeAll waiting node hdepth

/-! ## Runs of operators -/

theorem Parsed.binary {power : Power} {levels : Nat} {operator : Token} {left right : List Token}
    {leftNode rightNode : Node} (hleft : Parsed (.operation power) levels left leftNode)
    (hoperator : operator.text ∈ operators power)
    (hright : Parsed (.operation power.tighter) levels right rightNode) (hsome : right ≠ []) :
    Parsed (.operation power) levels (left ++ operator :: right)
      (.binary operator.text leftNode rightNode) := by
  intro minimum state rest hle hrest hstops hlevel hdepth
  rw [List.append_assoc, List.cons_append] at hrest
  have hpower := standardPower_eq_iff.mpr hoperator
  have hbehind : Stops power.tighter (operator :: (right ++ rest)) := by
    intro token hhead
    simp only [List.head?_cons, Option.mem_def, Option.some.injEq] at hhead
    exact .inr ⟨power, hhead ▸ hpower, power_lt_tighter hoperator⟩
  simp only [Node.depth_binary] at hdepth
  rw [hleft minimum state _ hle hrest hbehind hlevel (by omega), Rule.foldSteps_eq]
  have hrest' : (state.skip left.length).rest = [operator] ++ (right ++ rest) := by simp [hrest]
  have hlt : ¬ power < minimum := by
    rw [Power.lt_iff]
    omega
  refine (run_bind_of_ok (run_operator? hrest' hpower)).trans ?_
  simp only [if_neg hlt]
  refine run_bind_skip hrest' (run_advance hrest') fun hrest => ?_
  refine (run_bind_of_ok (run_more (by rw [hrest]; simp [hsome]))).trans ?_
  refine run_bind_skip hrest (hright.run_binary hrest hstops hlevel (by omega)) fun _ => ?_
  refine (run_bind_of_ok (run_build (by simpa using hdepth))).trans ?_
  simp [Nat.add_comm, Nat.add_left_comm]

theorem Parsed.tighter {power : Power} {levels : Nat} {tokens : List Token} {node : Node}
    (h : Parsed (.operation power.tighter) levels tokens node) (hpower : power ≠ .primary) :
    Parsed (.operation power) levels tokens node := by
  intro minimum state rest hle hrest hstops hlevel hdepth
  have hrank : power.rank ≤ power.tighter.rank := by cases power <;> decide
  exact h minimum state rest (Nat.le_trans hle hrank) hrest hstops.tighter hlevel hdepth

theorem Parsed.operand {levels : Nat} {tokens : List Token} {node : Node}
    (h : Parsed .application levels tokens node) :
    Parsed (.operation .primary) levels tokens node := by
  intro minimum state rest _ hrest hstops hlevel hdepth
  rw [Rule.binary_step]
  exact run_bind_of_ok (h state rest hrest hstops.afterOperand hlevel hdepth)

/-! ## Applications -/

/-- An argument starts with a token that goes on with an application. -/
theorem Derives.goesOn {levels : Nat} {tokens : List Token} {node : Node}
    (h : Derives .primary levels tokens node) (hclose : ¬ StartsWith closers tokens) :
    ∃ token more, tokens = token :: more ∧
      (token.isTerminator || token.isBinaryOperator) = false := by
  have hstart : ∃ token more, tokens = token :: more ∧ (isNumberShaped token.text.toList = true ∨
      isNameShaped token.text.toList = true ∨ token.text = "(") := by
    cases h with
    | number h => exact ⟨_, [], rfl, .inl h⟩
    | boolean h =>
      have hwords : ∀ word ∈ ["true", "false"], isNameShaped word.toList = true := by decide
      exact ⟨_, [], rfl, .inr (.inl (hwords _ h))⟩
    | name h _ => exact ⟨_, [], rfl, .inr (.inl h)⟩
    | group h _ _ => exact ⟨_, _, rfl, .inr (.inr h)⟩
  obtain ⟨token, more, rfl, hstart⟩ := hstart
  refine ⟨token, more, rfl, Bool.eq_false_iff.mpr fun hend => ?_⟩
  have hwords : ∀ word ∈ [")", ";"] ++ ["==", "!=", "<", ">", "<=", ">=", "+", "-", "*", "/"],
      isNumberShaped word.toList = false ∧ isNameShaped word.toList = false ∧ word ≠ "(" := by
    decide
  rw [startsWith_cons] at hclose
  rw [Bool.or_eq_true, isTerminator_iff, Token.isBinaryOperator_iff, terminators,
    List.mem_append, or_iff_left hclose, ← List.mem_append] at hend
  obtain ⟨hnumber, hname, hparen⟩ := hwords _ hend
  rcases hstart with h | h | h
  · simp [hnumber] at h
  · simp [hname] at h
  · exact hparen h

theorem run_argumentSteps {levels : Nat} (arguments : List (List Token × Node))
    (hgoesOn : ∀ argument ∈ arguments, ∃ token more, argument.1 = token :: more ∧
      (token.isTerminator || token.isBinaryOperator) = false)
    (hparsed : ∀ argument ∈ arguments, Parsed .primary levels argument.1 argument.2)
    (hdepth : ∀ argument ∈ arguments, argument.2.depth ≤ maxDepth) (done : List Node)
    (hrest : state.rest = arguments.flatMap Prod.fst ++ rest) (hafter : AfterOperand rest)
    (hlevel : state.nesting + levels ≤ maxNesting) :
    (Rule.argumentSteps (.primary (.expression .standard levels)) done).run state =
      .ok (done.reverse ++ arguments.map Prod.snd)
        (state.skip (arguments.flatMap Prod.fst).length) := by
  rw [Rule.argumentSteps_eq, run_bind]
  simp only [current?, Outcome.andThen_ok]
  induction arguments generalizing done state with
  | nil =>
    simp only [List.flatMap_nil, List.nil_append] at hrest
    cases rest with
    | nil => simp [hrest]
    | cons token more =>
      have hend : (token.isTerminator || token.isBinaryOperator) = true := by
        simpa using hafter token rfl
      simp [hrest, hend]
  | cons argument arguments ih =>
    obtain ⟨⟨token, more, hfirst, hgo⟩, hgoesOn⟩ := List.forall_mem_cons.mp hgoesOn
    obtain ⟨hparsed, hall⟩ := List.forall_mem_cons.mp hparsed
    obtain ⟨hdepth, hdepths⟩ := List.forall_mem_cons.mp hdepth
    rw [List.flatMap_cons, List.append_assoc] at hrest
    have hhead : state.rest.head? = some token := by simp [hrest, hfirst]
    simp only [hhead, hgo, Bool.false_eq_true, if_false]
    refine run_bind_skip hrest (hparsed state _ hrest hlevel hdepth) fun hrest => ?_
    rw [Rule.argumentSteps_eq, run_bind]
    simp only [current?, Outcome.andThen_ok]
    rw [ih hgoesOn hall hdepths _ hrest hlevel]
    simp

theorem Parsed.apply {levels : Nat} {callee : List Token} {calleeNode : Node}
    {arguments : List (List Token × Node)} (hcallee : Parsed .primary levels callee calleeNode)
    (hsome : arguments ≠ [])
    (hgoesOn : ∀ argument ∈ arguments, ∃ token more, argument.1 = token :: more ∧
      (token.isTerminator || token.isBinaryOperator) = false)
    (harguments : ∀ argument ∈ arguments, Parsed .primary levels argument.1 argument.2) :
    Parsed .application levels (callee ++ arguments.flatMap Prod.fst)
      (.apply calleeNode (arguments.map Prod.snd)) := by
  intro state rest hrest hafter hlevel hdepth
  have hchild : ∀ child ∈ calleeNode :: arguments.map Prod.snd, child.depth ≤ maxDepth :=
    fun child hmem => Nat.le_trans (Nat.le_of_lt (Node.depth_lt_apply hmem)) hdepth
  obtain ⟨hcalleeDepth, hdepths⟩ := List.forall_mem_cons.mp hchild
  rw [List.append_assoc] at hrest
  refine run_bind_skip hrest (hcallee state _ hrest hlevel hcalleeDepth) fun hrest => ?_
  refine run_bind_skip hrest (run_argumentSteps arguments hgoesOn harguments
    (fun argument hmem => hdepths _ (List.mem_map_of_mem hmem)) [] hrest hafter hlevel) fun _ => ?_
  obtain ⟨argument, more, rfl⟩ := List.exists_cons_of_ne_nil hsome
  refine (run_build hdepth).trans ?_
  simp

theorem Parsed.callee {levels : Nat} {tokens : List Token} {node : Node}
    (h : Parsed .primary levels tokens node) : Parsed .application levels tokens node := by
  intro state rest hrest hafter hlevel hdepth
  refine run_bind_skip hrest (h state rest hrest hlevel hdepth) fun hrest => ?_
  exact run_bind_of_ok (run_argumentSteps [] (by simp) (by simp) (by simp) [] hrest
    hafter hlevel)

/-! ## Primaries -/

theorem parsed_number {levels : Nat} {token : Token}
    (h : isNumberShaped token.text.toList = true) :
    Parsed .primary levels [token] (.literal .number token.text) := by
  intro state rest hrest _ _
  rw [Rule.primary_step]
  simp [current?, advance, hrest, Token.kind_eq_number_iff.mpr h, State.next_eq_skip]

theorem parsed_boolean {levels : Nat} {token : Token} (h : token.text ∈ ["true", "false"]) :
    Parsed .primary levels [token] (.literal .boolean token.text) := by
  intro state rest hrest _ _
  rw [Rule.primary_step]
  rcases Token.kind_eq_boolean_iff.mpr h with hkind | hkind <;>
    simp [current?, advance, hrest, hkind, State.next_eq_skip]

theorem parsed_name {levels : Nat} {token : Token} (hname : token.isNameShaped = true)
    (hword : token.text ∉ ["true", "false"]) :
    Parsed .primary levels [token] (.identifier token.text) := by
  intro state rest hrest _ _
  have hnumber : token.kind ≠ .number := fun h => by
    have := not_isNumberShaped_of_isNameShaped hname
    rw [Token.kind_eq_number_iff.mp h] at this
    cases this
  have hparen : token.kind ≠ .openParen := fun h => by
    rw [Token.isNameShaped, Token.kind_eq_openParen_iff.mp h] at hname
    exact absurd hname (by decide)
  rw [Rule.primary_step]
  simp only [run_bind, current?, Outcome.andThen_ok, hrest, List.cons_append, List.head?_cons]
  split
  · next h => exact absurd h hnumber
  · next h => exact absurd (Token.kind_eq_boolean_iff.mp (.inl h)) hword
  · next h => exact absurd (Token.kind_eq_boolean_iff.mp (.inr h)) hword
  · next h => exact absurd h hparen
  · simp [hname, advance, State.next_eq_skip]

theorem Parsed.group {levels : Nat} {openParen closeParen : Token} {tokens : List Token}
    {node : Node} (hopen : openParen.text = "(") (h : Parsed .expression levels tokens node)
    (hclose : closeParen.text = ")") :
    Parsed .primary levels (openParen :: (tokens ++ [closeParen])) node := by
  intro state rest hrest hlevel hdepth
  simp only [List.cons_append, List.append_assoc, List.nil_append] at hrest
  rw [Rule.primary_step]
  simp only [run_bind, current?, Outcome.andThen_ok, hrest, List.head?_cons,
    Token.kind_eq_openParen_iff.mpr hopen]
  refine run_bind_one hrest (run_expect hrest hopen) fun hrest => ?_
  refine run_bind_skip hrest (h.run_expression hrest
    (stops_of_mem_terminators (by simp [hclose, terminators])) hlevel hdepth) fun hrest => ?_
  refine run_bind_one hrest (run_expectOr hrest hclose) fun _ => ?_
  simp [Nat.add_comm, Nat.add_left_comm]

/-! ## The parser and the grammar -/

/-- Every phrase is parsed. -/
theorem Derives.parsed {category : Category} {levels : Nat} {tokens : List Token} {node : Node}
    (h : Derives category levels tokens node) : Parsed category levels tokens node := by
  induction h with
  | letIn hlet hname hequals _ hin hbody ihvalue ihbody =>
    simpa [OpenForm.close] using
      (parsed_letIn hlet hname hequals ihvalue hin).close hbody.ne_nil ihbody
  | ifThenElse hif _ hthen _ helse hlast ihcondition ihfirst ihlast =>
    simpa [OpenForm.close] using
      (parsed_ifThenElse hif ihcondition hthen ihfirst helse).close hlast.ne_nil ihlast
  | function hfn hsome hparameters harrow hbody ihbody =>
    simpa [OpenForm.close] using
      (parsed_function hfn hsome hparameters harrow).close hbody.ne_nil ihbody
  | operation h hopen ih => exact ih.expression h.ne_nil hopen
  | binary _ hoperator hright ihleft ihright => exact ihleft.binary hoperator ihright hright.ne_nil
  | tighter hpower _ ih => exact ih.tighter hpower
  | operand _ ih => exact ih.operand
  | callee _ ih => exact ih.callee
  | apply _ hsome hclose harguments ihcallee iharguments =>
    exact ihcallee.apply hsome
      (fun argument hmem => (harguments argument hmem).goesOn (hclose argument hmem)) iharguments
  | number h => exact parsed_number h
  | boolean h => exact parsed_boolean h
  | name hname hword => exact parsed_name hname hword
  | group hopen _ hclose ih => exact ih.group hopen hclose

/-- The parser accepts the tokens with the given tree just when they are a phrase
of the grammar, in front of tokens that are ignored, within the two limits. -/
theorem parseTokens_eq_ok_iff {tokens : List Token} {node : Node} :
    parseTokens tokens = .ok (some node) ↔
      ∃ program rest, tokens = program ++ rest ∧
        (∀ token ∈ rest.head?, token.text ∈ terminators) ∧
        Derives .expression maxNesting program node ∧ node.depth ≤ maxDepth := by
  constructor
  · intro h
    unfold parseTokens at h
    split at h
    · cases h
    · split at h
      · next value after hrun =>
        cases h
        obtain ⟨program, hsplit, -, ⟨hderives, hdepth⟩, hstops⟩ :=
          expression_reads maxNesting (.start tokens) node after hrun
        refine ⟨program, after.rest, hsplit, fun token hhead => ?_, hderives, hdepth⟩
        exact isTerminator_iff.mp (hstops.isTerminator token hhead)
      · cases h
  · rintro ⟨program, rest, rfl, hrest, hderives, hdepth⟩
    have hstops : Stops .relational rest :=
      fun token hhead => .inl (isTerminator_iff.mpr (hrest token hhead))
    have hrun : (Rule.expression .standard maxNesting).step.run (.start (program ++ rest)) =
        .ok node ((State.start (program ++ rest)).skip program.length) :=
      hderives.parsed.run_expression rfl hstops (Nat.le_of_eq (Nat.zero_add maxNesting)) hdepth
    have hentry : (Entry.expression.step .standard).run (.start (program ++ rest)) =
        .ok node ((State.start (program ++ rest)).skip program.length) := hrun
    unfold parseTokens
    rw [hentry]
    simp [hderives.ne_nil]

/-- The source only matters for errors. -/
theorem parse_eq_ok_iff {tokens : List Token} {source : String} {node : Node} :
    parse tokens source = .ok (some node) ↔ parseTokens tokens = .ok (some node) := by
  unfold parse
  cases parseTokens tokens <;> simp [Except.mapError]

/-- A program parses to a tree exactly when the tokens up to its end, or up to a
terminator outside of it, derive the tree with at most 200 expressions open at
once, and the tree has at most 2000 levels. -/
theorem parse_eq_ok_iff_derives (tokens : List Token) (source : String) (node : Node) :
    parse tokens source = .ok (some node) ↔
      ∃ program rest, tokens = program ++ rest ∧
        (∀ token ∈ rest.head?, token.text ∈ [")", ";", "in", "then", "else"]) ∧
        Derives .expression 200 program node ∧ node.depth ≤ 2000 := by
  rw [parse_eq_ok_iff]
  exact parseTokens_eq_ok_iff

end MlFront.Grammar
