import MlFront.Proofs.Grammar.Complete
import MlFront.Proofs.Parser.Local

/-!
# The grounds of a fault

`Grounds passed rest cause line` says why the parser reports a cause on a line: one
case for each place in the rules that fails, with what has been read up to there and
what comes next. An outcome is `Grounded` when it is no fault or has such grounds;
the lemmas follow the way steps are put together. Nothing gives grounds for
`expectedToken`: a rule that takes a keyword or a `(` is only run in front of it.
-/

namespace MlFront

open Grammar

/-- The kinds that nothing starts with: operators, `->`, `=`, punctuation other than
`(`, and `unrecognised`. -/
def Kind.strays : List Kind :=
  operators.map Prod.snd ++ (punctuation.map Prod.snd).erase openParen ++ [unrecognised]

/-- The tokens are at their end or at a terminator that is not the given word. -/
def EndsBut (word : String) (rest : List Token) : Prop :=
  ∀ token ∈ rest.head?, token.text ∈ terminators ∧ token.text ≠ word

/-- The line of the next token, at the end the line of the last one. -/
def lineAt (passed rest : List Token) : Nat :=
  ((rest.head?.or passed.getLast?).map (·.line)).getD 1

/-- Why a cause is reported on a line, behind the tokens `passed` and in front of `rest`. -/
inductive Grounds (passed rest : List Token) : Cause → Nat → Prop where
  | unexpectedEnd (hrest : rest = []) : Grounds passed rest .unexpectedEnd (lineAt passed rest)
  | unexpectedToken {token : Token} (hrest : token ∈ rest.head?)
      (hstray : token.kind ∈ Kind.strays) :
      Grounds passed rest (.unexpectedToken token.text) (lineAt passed rest)
  | rightOperand {front : List Token} {operator : Token} (hpassed : passed = front ++ [operator])
      (hoperator : operator.isBinaryOperator = true) (hrest : rest = []) :
      Grounds passed rest (.expectedRightOperand operator.text) (lineAt passed rest)
  | closingParen (hrest : EndsBut ")" rest) :
      Grounds passed rest .expectedClosingParen (lineAt passed rest)
  | letName {front : List Token} {letWord : Token} (hpassed : passed = front ++ [letWord])
      (hlet : letWord.text = "let") (hrest : ∀ token ∈ rest.head?, token.isNameShaped = false) :
      Grounds passed rest .expectedLetName letWord.line
  | letEquals {front : List Token} {letWord name : Token}
      (hpassed : passed = front ++ [letWord, name]) (hlet : letWord.text = "let")
      (hname : name.isNameShaped = true) (hrest : ∀ token ∈ rest.head?, token.text ≠ "=") :
      Grounds passed rest .expectedLetEquals letWord.line
  | letIn {front value : List Token} {letWord name equals : Token} {node : Node}
      (hpassed : passed = front ++ letWord :: name :: equals :: value)
      (hlet : letWord.text = "let") (hname : name.isNameShaped = true) (hequals : equals.text = "=")
      (hvalue : Accepted .expression maxNesting value node) (hrest : EndsBut "in" rest) :
      Grounds passed rest .expectedLetIn letWord.line
  | thenWord {front condition : List Token} {ifWord : Token} {node : Node}
      (hpassed : passed = front ++ ifWord :: condition) (hif : ifWord.text = "if")
      (hcondition : Accepted .expression maxNesting condition node) (hrest : EndsBut "then" rest) :
      Grounds passed rest .expectedThen ifWord.line
  | elseWord {front condition first : List Token} {ifWord thenWord : Token} {node firstNode : Node}
      (hpassed : passed = front ++ ifWord :: (condition ++ thenWord :: first))
      (hif : ifWord.text = "if") (hcondition : Accepted .expression maxNesting condition node)
      (hthen : thenWord.text = "then") (hfirst : Accepted .expression maxNesting first firstNode)
      (hrest : EndsBut "else" rest) : Grounds passed rest .expectedElse ifWord.line
  | arrow {front parameters : List Token} {fnWord : Token}
      (hpassed : passed = front ++ fnWord :: parameters) (hfn : fnWord.text = "fn")
      (hparameters : ∀ token ∈ parameters, token.isNameShaped = true)
      (hrest : ∀ token ∈ rest.head?, token.isNameShaped = false)
      (harrow : parameters = [] ∨ ∀ token ∈ rest.head?, token.text ≠ "->") :
      Grounds passed rest .expectedArrow fnWord.line
  | functionBody {front parameters : List Token} {fnWord arrow : Token}
      (hpassed : passed = front ++ fnWord :: (parameters ++ [arrow])) (hfn : fnWord.text = "fn")
      (hsome : parameters ≠ []) (hparameters : ∀ token ∈ parameters, token.isNameShaped = true)
      (harrow : arrow.text = "->") (hrest : rest = []) :
      Grounds passed rest .expectedFunctionBody fnWord.line
  | tooNested : Grounds passed rest .tooNested (lineAt passed rest)
  | tooDeep : Grounds passed rest .tooDeep (lineAt passed rest)

/-- The tokens before the cursor, in their order. -/
def State.passed (state : State) : List Token :=
  state.before.reverse

/-- The outcome is no fault, or there are grounds for it where it was found. -/
def Outcome.Grounded {α : Type} : Outcome α → Prop
  | .ok _ _ => True
  | .error fault after => Grounds after.passed after.rest fault.cause fault.position.line

/-! ## Tokens and states -/

/-- What starts no primary is a stray. -/
theorem Token.kind_mem_strays {token : Token}
    (hword : token.kind ∉ [.number, .kwTrue, .kwFalse, .openParen])
    (hname : token.isNameShaped = false) : token.kind ∈ Kind.strays := by
  have hspelled : ∀ entry ∈ Kind.spelled, entry.2 ∈ Kind.strays ∨
      entry.2 ∈ [Kind.number, .kwTrue, .kwFalse, .openParen] ∨
        MlFront.isNameShaped entry.1.toList = true := by decide
  rcases Kind.ofText_cases token.text with hs | ⟨-, hshape⟩ | ⟨hk, -⟩ | ⟨hk, -⟩
  · rcases hspelled _ hs with h | h | h
    · exact h
    · exact absurd h hword
    · exact absurd h (Bool.eq_false_iff.mp hname)
  · exact absurd hshape (Bool.eq_false_iff.mp hname)
  · exact absurd (by simp [kind, hk]) hword
  · rw [kind, hk]
    decide

/-- A phrase that ends where the given word is missing ends at another terminator. -/
theorem Grammar.Stops.endsBut {rest : List Token} {word : String} (h : Stops .relational rest)
    (hword : ∀ token ∈ rest.head?, token.text ≠ word) : EndsBut word rest :=
  fun token hhead => ⟨isTerminator_iff.mp (h.isTerminator token hhead), hword token hhead⟩

namespace State

variable {state : State} {taken rest : List Token} {token : Token}

theorem passed_skip (h : state.rest = taken ++ rest) :
    (state.skip taken.length).passed = state.passed ++ taken := by
  simp [passed, skip, h]

theorem passed_skip_one (h : state.rest = token :: rest) :
    (state.skip 1).passed = state.passed ++ [token] := by
  simp [passed, skip, h]

theorem length_passed : state.passed.length = state.index :=
  List.length_reverse

theorem line_eq_lineAt : state.line = lineAt state.passed state.rest := by
  rw [line_eq, lineAt, passed, List.getLast?_reverse]

end State

/-! ## Steps put together -/

namespace ParseM

variable {α β : Type} {state : State} {P : List Token → α → List Token → Prop}

theorem Grounded.bind {step : ParseM α} {next : α → ParseM β} (h : (step.run state).Grounded)
    (hnext : ∀ value after, step.run state = .ok value after →
      ((next value).run after).Grounded) : ((step >>= next).run state).Grounded := by
  rw [run_bind]
  cases hrun : step.run state with
  | error fault after =>
    rw [hrun] at h
    exact h
  | ok value after => exact hnext value after hrun

/-- The next step goes on behind the tokens that the first one has taken. -/
theorem Grounded.bind_reads {step : ParseM α} {next : α → ParseM β}
    (h : (step.run state).Grounded) (hreads : (step.run state).Reads state P)
    (hnext : ∀ taken value after, after.passed = state.passed ++ taken →
      P taken value after.rest → ((next value).run after).Grounded) :
    ((step >>= next).run state).Grounded := by
  refine Grounded.bind h fun value after hrun => ?_
  obtain ⟨taken, hrest, rfl, hP⟩ := hreads value after hrun
  exact hnext taken value _ (State.passed_skip hrest) hP

theorem Grounded.map {step : ParseM α} {f : α → β} (h : (step.run state).Grounded) :
    ((step >>= fun value => pure (f value)).run state).Grounded :=
  Grounded.bind h fun _ _ _ => trivial

/-- A form that starts with its keyword goes on behind it, with the keyword's line. -/
theorem Grounded.keyword {token : Token} {rest : List Token} {word : String}
    {next : Nat → ParseM α} (hrest : state.rest = token :: rest) (hword : token.text = word)
    (h : ∀ after, after.passed = state.passed ++ [token] →
      ((next token.line).run after).Grounded) :
    ((currentLine >>= fun line => expect word >>= fun _ => next line).run state).Grounded := by
  have hline : state.line = token.line := by simp [State.line_eq, hrest]
  rw [run_bind_of_ok run_currentLine, run_bind_of_ok (run_expect hrest hword), hline]
  exact h _ (State.passed_skip_one hrest)

theorem grounded_fault {cause : Cause}
    (h : Grounds state.passed state.rest cause (lineAt state.passed state.rest)) :
    (Outcome.error (state.fault cause) state : Outcome α).Grounded := by
  rw [← State.line_eq_lineAt] at h
  exact h

theorem grounded_expectOr {text : String} {fault : State → Fault}
    (h : (∀ token ∈ state.rest.head?, token.text ≠ text) →
      (Outcome.error (fault state) state : Outcome Token).Grounded) :
    ((expectOr text fault).run state).Grounded := by
  simp only [expectOr]
  split
  · next token rest hrest =>
    split
    · trivial
    · next hne => exact h (by simpa [hrest] using hne)
  · next hrest => exact h (by simp [hrest])

theorem grounded_nameOr {cause : Cause} {line : Nat}
    (h : (∀ token ∈ state.rest.head?, token.isNameShaped = false) →
      Grounds state.passed state.rest cause line) : ((nameOr cause line).run state).Grounded := by
  simp only [nameOr]
  split
  · next token rest hrest =>
    split
    · trivial
    · next hname => exact h (by simpa [hrest] using hname)
  · next hrest => exact h (by simp [hrest])

theorem grounded_parameters (state : State) : (parameters.run state).Grounded :=
  trivial

theorem grounded_arrow {names : List String} {line : Nat}
    (hmissing : (names = [] ∨ ∀ token ∈ state.rest.head?, token.text ≠ "->") →
      Grounds state.passed state.rest .expectedArrow line)
    (hlast : ∀ token, state.rest = [token] → token.text = "->" → names ≠ [] →
      Grounds (state.passed ++ [token]) [] .expectedFunctionBody line) :
    ((arrow names line).run state).Grounded := by
  simp only [arrow]
  split
  · next hif =>
    refine hmissing ?_
    simp only [Bool.or_eq_true, List.isEmpty_iff, bne_iff_ne] at hif
    refine hif.imp_right fun hne token hhead harrow => hne ?_
    rw [hhead, Option.map_some, Token.kind_eq_arrow_iff.mpr harrow]
  · next hif =>
    simp only [Bool.or_eq_true, not_or, List.isEmpty_iff, bne_iff_ne, ne_eq, Decidable.not_not,
      Option.map_eq_some_iff] at hif
    obtain ⟨hsome, token, hhead, hkind⟩ := hif
    obtain ⟨more, hrest⟩ := List.head?_eq_some_iff.mp hhead
    split
    · next hend =>
      have hnext : state.next.rest = [] := List.isEmpty_iff.mp hend
      obtain rfl : more = [] := by simpa [State.next_eq_skip, hrest] using hnext
      have hpassed : state.next.passed = state.passed ++ [token] := by
        rw [State.next_eq_skip, State.passed_skip_one hrest]
      have hgrounds := hlast token hrest (Token.kind_eq_arrow_iff.mp hkind) hsome
      rw [← hpassed, ← hnext] at hgrounds
      exact hgrounds
    · trivial

theorem grounded_more {cause : Cause}
    (h : state.rest = [] → Grounds state.passed state.rest cause (lineAt state.passed state.rest)) :
    ((more cause).run state).Grounded := by
  simp only [more]
  split
  · next hend => exact grounded_fault (h (List.isEmpty_iff.mp hend))
  · trivial

theorem grounded_build (node : Node) : ((build node).run state).Grounded := by
  simp only [build]
  split
  · exact grounded_fault .tooDeep
  · trivial

/-- A step inside one more open expression has the grounds that it has there. -/
theorem grounded_nested {step : ParseM α} (h : ∀ state, (step.run state).Grounded) :
    ((descend >>= fun _ => closing step).run state).Grounded := by
  rw [run_bind]
  simp only [descend]
  split
  · exact grounded_fault .tooNested
  · simp only [Outcome.andThen_ok, closing]
    split
    · trivial
    · next fault after hrun =>
      have hinside := h { state with nesting := state.nesting + 1 }
      rw [hrun] at hinside
      exact hinside

end ParseM

end MlFront
