import MlFront.Proofs.Grammar.Basic
import MlFront.Proofs.Parser.Reads

/-!
# What the parser accepts is a phrase

Every rule that succeeds, with the tables of the language, has read a phrase of
its category, built the phrase's tree and stopped where the category ends
(`AfterOperand`, `Stops`). The loops carry what they have read so far:
`foldSteps_reads` a left operand that is a phrase already, `chainSteps_reads` the
forms that wait for their last expression.
-/

namespace MlFront.Grammar

open ParseM

/-- What an application ends before. -/
def AfterOperand (rest : List Token) : Prop :=
  ∀ token ∈ rest.head?, token.isTerminator = true ∨ token.isBinaryOperator = true

/-- What a run of operators of at least the given power ends before. -/
def Stops (minimum : Power) (rest : List Token) : Prop :=
  ∀ token ∈ rest.head?, token.isTerminator = true ∨
    ∃ power, Tables.standardPower token.kind = some power ∧ power < minimum

/-- The tokens read are a phrase of the category, and its tree is not too deep. -/
def Accepted (category : Category) (levels : Nat) (tokens : List Token) (node : Node) : Prop :=
  Derives category levels tokens node ∧ node.depth ≤ maxDepth

/-- The rule reads expressions inside `levels` levels. -/
def ReadsExpressions (levels : Nat) (inner : Rule Node) : Prop :=
  ∀ state, (inner.step.run state).Reads state fun tokens node _ =>
    Accepted .expression levels tokens node

theorem one_le_maxDepth : 1 ≤ maxDepth := by decide

section Rules

variable {levels : Nat} {inner : Rule Node}

/-! ## Primaries and applications -/

theorem grouping_reads (hinner : ReadsExpressions levels inner) (state : State) :
    ((Rule.grouping inner).step.run state).Reads state fun tokens node _ =>
      Accepted .primary levels tokens node := by
  refine Reads.bind reads_expect ?_
  rintro _ openParen - ⟨rfl, hopen⟩ -
  refine Reads.bind (hinner _) ?_
  rintro tokens node - ⟨hderives, hdepth⟩ -
  refine Reads.bind reads_expectOr ?_
  rintro _ closeParen - ⟨rfl, hclose⟩ -
  exact Outcome.reads_ok ⟨.group hopen hderives hclose, hdepth⟩

theorem primary_reads (hinner : ReadsExpressions levels inner) (state : State) :
    ((Rule.primary inner).step.run state).Reads state fun tokens node _ =>
      Accepted .primary levels tokens node := by
  simp only [Rule.primary]
  split
  · exact Outcome.reads_error _ _ _ _
  · next token rest hrest =>
    split
    · next hkind =>
      exact Outcome.reads_next hrest ⟨.number (Token.kind_eq_number_iff.mp hkind), one_le_maxDepth⟩
    · next hkind =>
      exact Outcome.reads_next hrest
        ⟨.boolean (Token.kind_eq_boolean_iff.mp (.inl hkind)), one_le_maxDepth⟩
    · next hkind =>
      exact Outcome.reads_next hrest
        ⟨.boolean (Token.kind_eq_boolean_iff.mp (.inr hkind)), one_le_maxDepth⟩
    · exact grouping_reads hinner state
    · next htrue hfalse _ =>
      split
      · next hname =>
        refine Outcome.reads_next hrest ⟨.name hname fun hword => ?_, one_le_maxDepth⟩
        rcases Token.kind_eq_boolean_iff.mpr hword with h | h
        · exact htrue h
        · exact hfalse h
      · exact Outcome.reads_error _ _ _ _

/-- The tokens are arguments, each a primary that does not start with a closing word. -/
def ArgumentsRead (levels : Nat) (done : List Node) (tokens : List Token) (nodes : List Node)
    (rest : List Token) : Prop :=
  ∃ arguments : List (List Token × Node), tokens = arguments.flatMap Prod.fst ∧
    nodes = done.reverse ++ arguments.map Prod.snd ∧
    (∀ argument ∈ arguments, ¬ StartsWith closers argument.1) ∧
    (∀ argument ∈ arguments, Derives .primary levels argument.1 argument.2) ∧ AfterOperand rest

theorem argumentSteps_reads (hinner : ReadsExpressions levels inner) (done : List Node)
    (state : State) :
    ((Rule.argumentSteps (Rule.primary inner) done).run state).Reads state
      (ArgumentsRead levels done) := by
  induction hn : state.rest.length using Nat.strongRecOn generalizing done state with
  | _ n ih =>
    rw [Rule.argumentSteps_eq, run_bind]
    simp only [current?, Outcome.andThen_ok]
    cases hrest : state.rest with
    | nil => exact Outcome.reads_ok ⟨[], rfl, by simp, by simp, by simp, by simp [AfterOperand, hrest]⟩
    | cons token rest =>
      simp only [List.head?_cons]
      split
      · next hend =>
        refine Outcome.reads_ok ⟨[], rfl, by simp, by simp, by simp, ?_⟩
        simpa [AfterOperand, hrest] using hend
      · next hend =>
        refine Reads.bind (primary_reads hinner state) ?_
        rintro first node hsplit ⟨hderives, hdepth⟩ hrun
        have hlt := (Rule.primary inner).shortens state node _ hrun
        refine (ih _ (hn ▸ hlt) (node :: done) _ rfl).mono ?_
        rintro _ nodes rest' ⟨arguments, rfl, rfl, hclose, hall, hafter⟩
        refine ⟨(first, node) :: arguments, by simp, by simp, ?_, ?_, hafter⟩
        · refine List.forall_mem_cons.mpr ⟨fun hstart => hend ?_, hclose⟩
          rw [← startsWith_append hderives.ne_nil, ← hsplit, hrest, startsWith_cons] at hstart
          rw [isTerminator_iff.mpr (List.mem_append_right _ hstart), Bool.true_or]
        · exact List.forall_mem_cons.mpr ⟨hderives, hall⟩

theorem application_reads (hinner : ReadsExpressions levels inner) (state : State) :
    ((Rule.application inner).step.run state).Reads state fun tokens node rest =>
      Accepted .application levels tokens node ∧ AfterOperand rest := by
  rw [Rule.application_step]
  refine Reads.bind (primary_reads hinner state) ?_
  rintro callee calleeNode - ⟨hcallee, hdepth⟩ -
  refine Reads.bind (argumentSteps_reads hinner [] _) ?_
  rintro _ nodes - ⟨arguments, rfl, rfl, hclose, hall, hafter⟩ -
  cases arguments with
  | nil =>
    exact Outcome.reads_ok ⟨⟨by simpa using Derives.callee hcallee, hdepth⟩, hafter⟩
  | cons argument more =>
    refine reads_build.mono ?_
    rintro _ node _ ⟨rfl, rfl, hdeep, rfl⟩
    refine ⟨⟨?_, hdeep⟩, hafter⟩
    simpa using Derives.apply hcallee (List.cons_ne_nil argument more) hclose hall

/-! ## Runs of operators -/

theorem exists_power {token : Token} (h : token.isBinaryOperator = true) :
    ∃ power, Tables.standardPower token.kind = some power := by
  rw [← Option.isSome_iff_exists, Tables.standardPower_isSome]
  exact h

theorem isBinaryOperator_of_power {token : Token} {power : Power}
    (h : Tables.standardPower token.kind = some power) : token.isBinaryOperator = true := by
  have hsome := Tables.standardPower_isSome token.kind
  rw [h] at hsome
  exact hsome.symm

theorem not_isTerminator_of_power {token : Token} {power : Power}
    (h : Tables.standardPower token.kind = some power) : token.isTerminator = false := by
  unfold Token.isTerminator
  cases hk : token.kind <;> simp_all [Tables.standardPower, Kind.isTerminator]

theorem Stops.afterOperand {minimum : Power} {rest : List Token} (h : Stops minimum rest) :
    AfterOperand rest := by
  intro token hhead
  exact (h token hhead).imp_right fun ⟨_, hpower, _⟩ => isBinaryOperator_of_power hpower

/-- Behind a right operand of an operator comes none that binds more tightly than the operator. -/
theorem Stops.rank_le {power : Power} {rest : List Token} (h : Stops power.tighter rest) :
    ∀ token ∈ rest.head?, ∀ q, Tables.standardPower token.kind = some q → q.rank ≤ power.rank := by
  intro token hhead q hq
  rcases h token hhead with hend | ⟨q', hq', hlt⟩
  · rw [not_isTerminator_of_power hq] at hend
    cases hend
  · cases hq.symm.trans hq'
    rw [Power.lt_iff, Power.rank_tighter] at hlt
    omega

theorem stops_of_operator?_none {minimum : Power} {state : State}
    (h : state.operator? .standard = none) (hafter : AfterOperand state.rest) :
    Stops minimum state.rest := by
  intro token hhead
  refine (hafter token hhead).imp_right fun hbinary => ?_
  obtain ⟨q, hq⟩ := exists_power hbinary
  cases hq.symm.trans (State.operator?_eq_none h token hhead)

theorem stops_of_operator?_some {minimum power : Power} {state : State} {operator : String}
    (h : state.operator? .standard = some (operator, power)) (hlt : power < minimum) :
    Stops minimum state.rest := by
  obtain ⟨token, more, hrest, -, hpower⟩ := State.operator?_eq_some h
  intro found hhead
  rw [hrest, List.head?_cons, Option.mem_def, Option.some.injEq] at hhead
  exact hhead ▸ .inr ⟨power, hpower, hlt⟩

/-- A left operand that is not gone on with is what was read. -/
theorem Accepted.reads_left {minimum power : Power} {read : List Token} {left : Node}
    {state : State} (h : Accepted (.operation power) levels read left)
    (hle : minimum.rank ≤ power.rank) (hstops : Stops minimum state.rest) :
    (Outcome.ok left state).Reads state fun tokens node rest =>
      Accepted (.operation minimum) levels (read ++ tokens) node ∧ Stops minimum rest := by
  refine Outcome.reads_ok ⟨⟨?_, h.2⟩, hstops⟩
  rw [List.append_nil]
  exact h.1.loosen hle

/-- The rule reads operations of at least the given power from states with fewer tokens. -/
def ReadsOperations (levels bound : Nat) (operand : Rule Node) : Prop :=
  ∀ minimum state, state.rest.length < bound →
    ((Rule.binary .standard operand minimum).step.run state).Reads state fun tokens node rest =>
      Accepted (.operation minimum) levels tokens node ∧ Stops minimum rest

/-- Folding goes on from a left operand that is a phrase already. The operator at
the cursor does not bind more tightly than that phrase, and so it may take the
whole of it as its left operand. -/
theorem foldSteps_reads {operand : Rule Node} {bound : Nat}
    (hright : ReadsOperations levels bound operand) {minimum power : Power}
    {read : List Token} {left : Node} (hleft : Accepted (.operation power) levels read left)
    (hle : minimum.rank ≤ power.rank) {state : State} (hbound : state.rest.length ≤ bound)
    (hafter : AfterOperand state.rest)
    (hpower : ∀ token ∈ state.rest.head?, ∀ q, Tables.standardPower token.kind = some q →
      q.rank ≤ power.rank) :
    ((Rule.foldSteps .standard operand minimum left).run state).Reads state
      fun tokens node rest =>
        Accepted (.operation minimum) levels (read ++ tokens) node ∧ Stops minimum rest := by
  induction hn : state.rest.length using Nat.strongRecOn generalizing power read left state with
  | _ n ih =>
    rw [Rule.foldSteps_eq, run_bind]
    simp only [operator?, Outcome.andThen_ok]
    cases hop : state.operator? .standard with
    | none => exact hleft.reads_left hle (stops_of_operator?_none hop hafter)
    | some found =>
      obtain ⟨operator, q⟩ := found
      obtain ⟨token, more, hrest, rfl, hq⟩ := State.operator?_eq_some hop
      simp only
      split
      · next hmin => exact hleft.reads_left hle (stops_of_operator?_some hop hmin)
      · next hmin =>
        have hq' : q.rank ≤ power.rank := hpower token (by simp [hrest]) q hq
        refine Reads.bind (reads_advance hrest) ?_
        rintro _ - - rfl -
        refine Reads.bind reads_more ?_
        rintro _ - - rfl -
        refine Reads.bind (hright q.tighter _ ?_) ?_
        · simp only [hrest, List.length_cons] at hbound
          simp [hrest]
          omega
        rintro right rightNode hsplit ⟨⟨hright', hdepth⟩, hstops⟩ -
        refine Reads.bind reads_build ?_
        rintro _ node - ⟨rfl, rfl, hdeep, -⟩ -
        have hfolded : Accepted (.operation q) levels (read ++ token :: right)
            (.binary token.text left rightNode) :=
          ⟨.binary (hleft.1.loosen hq') (standardPower_eq_iff.mp hq) hright', hdeep⟩
        have hmin' : minimum.rank ≤ q.rank := by
          rw [Power.lt_iff] at hmin
          omega
        have hlt : (state.skip (1 + right.length)).rest.length < state.rest.length := by
          rw [State.rest_skip, List.length_drop, hrest, List.length_cons]
          omega
        simp only [State.skip_skip, List.length_singleton, List.length_nil, Nat.add_zero]
          at hstops ⊢
        refine (ih _ (hn ▸ hlt) hfolded hmin' (by omega) hstops.afterOperand hstops.rank_le
          rfl).mono ?_
        rintro tokens node rest ⟨haccepted, hstops⟩
        exact ⟨by simpa using haccepted, hstops⟩

theorem binary_reads (hinner : ReadsExpressions levels inner) (minimum : Power) (state : State) :
    ((Rule.binary .standard (Rule.application inner) minimum).step.run state).Reads state
      fun tokens node rest =>
        Accepted (.operation minimum) levels tokens node ∧ Stops minimum rest := by
  induction hn : state.rest.length using Nat.strongRecOn generalizing minimum state with
  | _ n ih =>
    rw [Rule.binary_step]
    refine Reads.bind (application_reads hinner state) ?_
    rintro operand left - ⟨⟨hleft, hdepth⟩, hafter⟩ hrun
    have hlt := (Rule.application inner).shortens state left _ hrun
    have hoperand : Accepted (.operation .primary) levels operand left := ⟨.operand hleft, hdepth⟩
    refine foldSteps_reads (fun minimum state hlt' => ?_) hoperand (by cases minimum <;> decide)
      (Nat.le_refl _) hafter fun _ _ q _ => by cases q <;> decide
    exact ih _ (by omega) minimum state rfl

/-! ## Forms -/

theorem letIn_reads (hinner : ReadsExpressions levels inner) (state : State) :
    ((Rule.letIn inner).step.run state).Reads state fun tokens form _ =>
      Opens levels tokens form := by
  refine Reads.bind reads_currentLine ?_
  rintro _ line - ⟨rfl, -⟩ -
  refine Reads.bind reads_expect ?_
  rintro _ letWord - ⟨rfl, hlet⟩ -
  refine Reads.bind reads_nameOr ?_
  rintro _ _ - ⟨name, rfl, hname, rfl⟩ -
  refine Reads.bind reads_expectOr ?_
  rintro _ equals - ⟨rfl, hequals⟩ -
  refine Reads.bind (hinner _) ?_
  rintro value valueNode - ⟨hvalue, -⟩ -
  refine Reads.bind reads_expectOr ?_
  rintro _ inWord - ⟨rfl, hin⟩ -
  exact Outcome.reads_ok (by simpa using Opens.letIn hlet hname hequals hvalue hin)

theorem ifThenElse_reads (hinner : ReadsExpressions levels inner) (state : State) :
    ((Rule.ifThenElse inner).step.run state).Reads state fun tokens form _ =>
      Opens levels tokens form := by
  refine Reads.bind reads_currentLine ?_
  rintro _ line - ⟨rfl, -⟩ -
  refine Reads.bind reads_expect ?_
  rintro _ ifWord - ⟨rfl, hif⟩ -
  refine Reads.bind (hinner _) ?_
  rintro condition conditionNode - ⟨hcondition, -⟩ -
  refine Reads.bind reads_expectOr ?_
  rintro _ thenWord - ⟨rfl, hthen⟩ -
  refine Reads.bind (hinner _) ?_
  rintro first firstNode - ⟨hfirst, -⟩ -
  refine Reads.bind reads_expectOr ?_
  rintro _ elseWord - ⟨rfl, helse⟩ -
  exact Outcome.reads_ok (by simpa using Opens.ifThenElse hif hcondition hthen hfirst helse)

theorem function_reads (state : State) :
    (Rule.function.step.run state).Reads state fun tokens form _ => Opens levels tokens form := by
  refine Reads.bind reads_currentLine ?_
  rintro _ line - ⟨rfl, -⟩ -
  refine Reads.bind reads_expect ?_
  rintro _ fnWord - ⟨rfl, hfn⟩ -
  refine Reads.bind reads_parameters ?_
  rintro parameters _ - ⟨hparameters, rfl, -⟩ -
  refine Reads.bind reads_arrow ?_
  rintro _ _ - ⟨arrow, rfl, harrow, hsome⟩ -
  refine Outcome.reads_ok ?_
  simp only [List.map_eq_nil_iff, ne_eq] at hsome
  simp only [Token.isParameter_eq] at hparameters
  simpa using Opens.function hfn hsome hparameters (Token.kind_eq_arrow_iff.mp harrow)

theorem form_reads (hinner : ReadsExpressions levels inner) (form : Form) (state : State) :
    ((form.rule inner).step.run state).Reads state fun tokens opened _ =>
      Opens levels tokens opened := by
  cases form with
  | letIn => exact letIn_reads hinner state
  | ifThenElse => exact ifThenElse_reads hinner state
  | function => exact function_reads state

/-! ## Expressions -/

theorem closeAll_reads (forms : List OpenForm) (node : Node) (hdepth : node.depth ≤ maxDepth)
    (state : State) :
    ((Rule.closeAll forms node).run state).Reads state fun tokens whole rest =>
      tokens = [] ∧ whole = closed forms node ∧ whole.depth ≤ maxDepth ∧ rest = state.rest := by
  induction forms generalizing node with
  | nil => exact Outcome.reads_ok ⟨rfl, rfl, hdepth, rfl⟩
  | cons form more ih =>
    refine Reads.bind reads_build ?_
    rintro _ _ - ⟨rfl, rfl, hdeep, -⟩ -
    exact ih _ hdeep

/-- The forms that wait are closed around an expression that has been read. -/
theorem chainSteps_reads (hinner : ReadsExpressions levels inner) (waiting : List OpenForm)
    (state : State) :
    ((Rule.chainSteps .standard inner (.binary .standard (.application inner) .relational)
      waiting).run state).Reads state fun tokens whole rest =>
        ∃ node, Derives .expression (levels + 1) tokens node ∧ whole = closed waiting node ∧
          whole.depth ≤ maxDepth ∧ Stops .relational rest := by
  induction hn : state.rest.length using Nat.strongRecOn generalizing waiting state with
  | _ n ih =>
    rw [Rule.chainSteps_eq, run_bind]
    simp only [current?, Outcome.andThen_ok]
    cases hrest : state.rest with
    | nil => exact Outcome.reads_error _ _ _ _
    | cons token rest =>
      simp only [List.head?_cons]
      split
      · next hform =>
        refine Reads.bind (binary_reads hinner .relational state) ?_
        rintro tokens node hsplit ⟨⟨hderives, hdepth⟩, hstops⟩ -
        refine (closeAll_reads waiting node hdepth _).mono ?_
        rintro _ whole _ ⟨rfl, rfl, hdeep, rfl⟩
        refine ⟨node, ?_, rfl, hdeep, hstops⟩
        have hopen : ¬ StartsWith openers tokens := by
          rw [← startsWith_append hderives.ne_nil, ← hsplit, hrest, startsWith_cons]
          exact standardForm_eq_none_iff.mp hform
        simpa using Derives.operation hderives hopen
      · next form hform =>
        refine Reads.bind (form_reads hinner form state) ?_
        rintro tokens opened - hopened hrun
        have hlt := (form.rule inner).shortens state opened _ hrun
        refine (ih _ (hn ▸ hlt) (opened :: waiting) _ rfl).mono ?_
        rintro body whole rest' ⟨node, hderives, rfl, hdeep, hstops⟩
        exact ⟨opened.close node, hopened.close hderives, rfl, hdeep, hstops⟩

theorem expression_reads_stops (hinner : ReadsExpressions levels inner) (state : State) :
    ((Rule.nested (.body .standard inner)).step.run state).Reads state fun tokens node rest =>
      Accepted .expression (levels + 1) tokens node ∧ Stops .relational rest := by
  refine reads_nested ((chainSteps_reads hinner [] _).mono ?_)
  rintro tokens _ rest ⟨node, hderives, rfl, hdeep, hstops⟩
  exact ⟨⟨hderives, hdeep⟩, hstops⟩

end Rules

/-- An expression that is read inside `levels` levels is one of the grammar, and
it ends at a terminator or with the tokens. -/
theorem expression_reads (levels : Nat) (state : State) :
    ((Rule.expression .standard levels).step.run state).Reads state fun tokens node rest =>
      Accepted .expression levels tokens node ∧ Stops .relational rest := by
  induction levels generalizing state with
  | zero => exact reads_nested (Outcome.reads_error _ _ _ _)
  | succ levels ih =>
    exact expression_reads_stops (fun state => (ih state).mono fun _ _ _ h => h.1) state

end MlFront.Grammar
