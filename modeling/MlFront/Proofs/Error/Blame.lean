import MlFront.Proofs.Error.Truth

/-!
# The line that an error is blamed on

`Cause.BlamedOn` says which line this is: the line of the token at the index of the
error, or that of the keyword whose form is not completed there. Between the keyword
and the index stand only whole expressions and the words of that form, however many
forms are inside of them or around it.
-/

namespace MlFront

open Grammar

/-- The token at an index has the given text and line. -/
def WordAt (tokens : List Token) (index : Nat) (word : String) (line : Nat) : Prop :=
  ∃ token ∈ tokens[index]?, token.text = word ∧ token.line = line

/-- The tokens, parsed by themselves, are an expression and no more. -/
def ReadWhole (tokens : List Token) : Prop :=
  ∃ node after, (∀ source, parse tokens source = .ok (some node)) ∧
    (Entry.expression.step .standard).run (.start tokens) = .ok node after ∧ after.rest = []

/-- The line that a cause is blamed on when it is reported at the index `k`. -/
def Cause.BlamedOn (tokens : List Token) (k line : Nat) : Cause → Prop
  | unexpectedEnd | unexpectedToken _ | expectedRightOperand _ | expectedClosingParen
  | internal _ => tokens[min k (tokens.length - 1)]?.map (·.line) = some line
  | expectedToken _ _ => False
  | expectedLetName => ∃ j, k = j + 1 ∧ WordAt tokens j "let" line
  | expectedLetEquals => ∃ j, k = j + 2 ∧ WordAt tokens j "let" line
  | expectedLetIn =>
    ∃ j, WordAt tokens j "let" line ∧ NameAt tokens (j + 1) ∧ textAt? tokens (j + 2) = some "=" ∧
      ReadWhole (tokens.extract (j + 3) k)
  | expectedThen => ∃ j, WordAt tokens j "if" line ∧ ReadWhole (tokens.extract (j + 1) k)
  | expectedElse =>
    ∃ j m, WordAt tokens j "if" line ∧ ReadWhole (tokens.extract (j + 1) m) ∧
      textAt? tokens m = some "then" ∧ ReadWhole (tokens.extract (m + 1) k)
  | expectedArrow =>
    ∃ j < k, WordAt tokens j "fn" line ∧
      ∀ token ∈ tokens.extract (j + 1) k, token.isNameShaped = true
  | expectedFunctionBody =>
    ∃ j m, j < m ∧ k = m + 1 ∧ WordAt tokens j "fn" line ∧
      (∀ token ∈ tokens.extract (j + 1) m, token.isNameShaped = true) ∧
      textAt? tokens m = some "->"

theorem WordAt.intro {tokens front rest : List Token} {token : Token} {word : String} {i : Nat}
    (h : tokens = front ++ token :: rest) (hi : front.length = i) (hword : token.text = word) :
    WordAt tokens i word token.line :=
  ⟨token, getElem?_eq h hi, hword, rfl⟩

theorem length_word (front middle : List Token) (token : Token) :
    (front ++ token :: middle).length = front.length + 1 + middle.length := by
  rw [List.length_append, List.length_cons, Nat.add_comm middle.length, Nat.add_assoc]

/-- A phrase within the limits of the parser is read whole. -/
theorem readWhole_of_accepted {tokens : List Token} {node : Node}
    (h : Accepted .expression maxNesting tokens node) : ReadWhole tokens := by
  have hnone : Stops .relational [] := by simp [Stops]
  have hrun : (Rule.expression .standard maxNesting).step.run (.start tokens) =
      .ok node ((State.start tokens).skip tokens.length) :=
    h.1.parsed.run_expression (List.append_nil tokens).symm hnone
      (Nat.le_of_eq (Nat.zero_add maxNesting)) h.2
  refine ⟨node, _, fun source => ?_, hrun, by simp [State.start]⟩
  have hparse := parseTokens_eq_ok_iff.mpr
    ⟨tokens, [], (List.append_nil tokens).symm, by simp, h.1, h.2⟩
  exact parse_eq_ok_iff.mpr hparse

theorem map_line_eq_lineAt {passed rest : List Token} (h : passed ++ rest ≠ []) :
    (passed ++ rest)[min passed.length ((passed ++ rest).length - 1)]?.map (·.line) =
      some (lineAt passed rest) := by
  cases rest with
  | nil =>
    rw [List.append_nil] at h ⊢
    rw [Nat.min_eq_right (Nat.sub_le _ _), ← List.getLast?_eq_getElem?, lineAt,
      List.getLast?_eq_some_getLast h]
    rfl
  | cons token more =>
    have hmin : min passed.length ((passed ++ token :: more).length - 1) = passed.length := by simp
    rw [hmin, getElem?_passed]
    rfl

theorem Grounds.blamedOn {passed rest : List Token} {cause : Cause} {line : Nat}
    (h : Grounds passed rest cause line) (hsome : passed ++ rest ≠ []) :
    cause.BlamedOn (passed ++ rest) passed.length line := by
  cases h with
  | unexpectedEnd | unexpectedToken | rightOperand | closingParen | tooNested | tooDeep =>
    exact map_line_eq_lineAt hsome
  | @letName front letWord hpassed hlet =>
    have hwhole : passed ++ rest = front ++ letWord :: rest := by simp [hpassed]
    exact ⟨front.length, by simp [hpassed], .intro hwhole rfl hlet⟩
  | @letEquals front letWord name hpassed hlet =>
    have hwhole : passed ++ rest = front ++ letWord :: name :: rest := by simp [hpassed]
    exact ⟨front.length, by simp [hpassed], .intro hwhole rfl hlet⟩
  | @letIn front value letWord name equals node hpassed hlet hname hequals hvalue =>
    have hlength : passed.length = front.length + (value.length + 3) := by simp [hpassed]
    have hwhole : passed ++ rest = front ++ letWord :: name :: equals :: (value ++ rest) := by
      simp [hpassed]
    have hname' : passed ++ rest = (front ++ [letWord]) ++ name :: equals :: (value ++ rest) := by
      simp [hpassed]
    have hequals' : passed ++ rest = (front ++ [letWord, name]) ++ equals :: (value ++ rest) := by
      simp [hpassed]
    refine ⟨front.length, .intro hwhole rfl hlet, .intro hname' (by simp) hname,
      textAt?_eq hequals' (by simp) hequals, ?_⟩
    rw [extract_eq hequals' (by simp) (by omega)]
    exact readWhole_of_accepted hvalue
  | @thenWord front condition ifWord node hpassed hif hcondition =>
    have hlength : passed.length = front.length + (condition.length + 1) := by simp [hpassed]
    have hwhole : passed ++ rest = front ++ ifWord :: (condition ++ rest) := by simp [hpassed]
    refine ⟨front.length, .intro hwhole rfl hif, ?_⟩
    rw [extract_eq hwhole rfl (by omega)]
    exact readWhole_of_accepted hcondition
  | @elseWord front condition first ifWord thenWord _ _ hpassed hif hcondition hthen hfirst =>
    have hindex := length_word front condition ifWord
    have hlength : passed.length = (front ++ ifWord :: condition).length + 1 + first.length := by
      rw [← length_word, hpassed, List.append_assoc, List.cons_append]
    have hwhole : passed ++ rest =
        front ++ ifWord :: (condition ++ thenWord :: (first ++ rest)) := by simp [hpassed]
    have hthen' : passed ++ rest =
        (front ++ ifWord :: condition) ++ thenWord :: (first ++ rest) := by simp [hpassed]
    refine ⟨front.length, front.length + 1 + condition.length, .intro hwhole rfl hif, ?_,
      textAt?_eq hthen' hindex hthen, ?_⟩
    · rw [extract_eq hwhole rfl rfl]
      exact readWhole_of_accepted hcondition
    · rw [extract_eq hthen' (by omega) (by omega)]
      exact readWhole_of_accepted hfirst
  | @arrow front parameters fnWord hpassed hfn hparameters =>
    have hlength : passed.length = front.length + (parameters.length + 1) := by simp [hpassed]
    have hwhole : passed ++ rest = front ++ fnWord :: (parameters ++ rest) := by simp [hpassed]
    refine ⟨front.length, by omega, .intro hwhole rfl hfn, ?_⟩
    rwa [extract_eq hwhole rfl (by omega)]
  | @functionBody front parameters fnWord arrow hpassed hfn _ hparameters harrow =>
    have hindex := length_word front parameters fnWord
    have hlength : passed.length = (front ++ fnWord :: parameters).length + 1 := by
      rw [hpassed, ← List.cons_append, ← List.append_assoc, List.length_append,
        List.length_singleton]
    have hwhole : passed ++ rest = front ++ fnWord :: (parameters ++ arrow :: rest) := by
      simp [hpassed]
    have harrow' : passed ++ rest = (front ++ fnWord :: parameters) ++ arrow :: rest := by
      simp [hpassed]
    refine ⟨front.length, front.length + 1 + parameters.length, by omega, by omega,
      .intro hwhole rfl hfn, ?_, textAt?_eq harrow' hindex harrow⟩
    rwa [extract_eq hwhole rfl rfl]

/-- Every error shows the line that it is blamed on: that of the token at its index,
or of the last one, or of the keyword of the form that is not completed. -/
theorem blamedOn_of_parse_eq_error {tokens : List Token} {source : String} {error : Error}
    (h : parse tokens source = .error error) :
    error.context = lineContext source error.position.line ∧
      error.cause.BlamedOn tokens error.position.tokenIndex error.position.line := by
  obtain ⟨hsome, fault, _, _, rfl⟩ := parse_eq_error_iff.mp h
  obtain ⟨passed, rest, rfl, hindex, hgrounds⟩ := exists_grounds h
  rw [← hindex]
  exact ⟨rfl, hgrounds.blamedOn hsome⟩

/-- The `else` of the inner `if` is missing, behind a `let` in its first branch. -/
theorem blamedOn_of_parse_if :
    let source := "if a then\nif b c\nthen let x = 1 in\nif x then 2 else 3"
    let error : Error := ⟨.expectedElse, ⟨2, 18⟩, "if b c"⟩
    parse (tokenize source) source = .error error ∧
      error.context = lineContext source error.position.line ∧
        error.cause.BlamedOn (tokenize source) error.position.tokenIndex error.position.line := by
  intro source error
  have herror : parse (tokenize source) source = .error error := by decide +kernel
  exact ⟨herror, blamedOn_of_parse_eq_error herror⟩

end MlFront
