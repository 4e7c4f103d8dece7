import MlFront.Proofs.Error.Rules

/-!
# Errors are true of the token they point at

`Cause.TrueAt` says, for each cause, what stands around the index that it is
reported at. It is read off the grounds of the fault, which end at that index.
-/

namespace MlFront

open Grammar

/-- The text of the token at an index. -/
def textAt? (tokens : List Token) (index : Nat) : Option String :=
  tokens[index]?.map (·.text)

/-- The token at an index has the shape of an identifier. -/
def NameAt (tokens : List Token) (index : Nat) : Prop :=
  ∃ token ∈ tokens[index]?, token.isNameShaped = true

/-- A word that may end an expression is missing: the tokens end, or the expression
ends in another way. -/
def MissingAt (tokens : List Token) (index : Nat) (word : String) : Prop :=
  ∀ text ∈ textAt? tokens index, text ∈ terminators ∧ text ≠ word

/-- What a cause says of the tokens when it is reported at the index `k`. -/
def Cause.TrueAt (tokens : List Token) (k : Nat) : Cause → Prop
  | unexpectedEnd => k = tokens.length
  | unexpectedToken text => ∃ token ∈ tokens[k]?, token.text = text ∧ token.kind ∈ Kind.strays
  | expectedToken _ _ => False
  | expectedLetName => ∃ j, k = j + 1 ∧ textAt? tokens j = some "let" ∧ ¬ NameAt tokens k
  | expectedLetEquals =>
    ∃ j, k = j + 2 ∧ textAt? tokens j = some "let" ∧ NameAt tokens (j + 1) ∧
      textAt? tokens k ≠ some "="
  | expectedLetIn => MissingAt tokens k "in"
  | expectedThen => MissingAt tokens k "then"
  | expectedElse => MissingAt tokens k "else"
  | expectedArrow =>
    ∃ j < k, textAt? tokens j = some "fn" ∧
      (∀ token ∈ tokens.extract (j + 1) k, token.isNameShaped = true) ∧ ¬ NameAt tokens k ∧
      (k = j + 1 ∨ textAt? tokens k ≠ some "->")
  | expectedFunctionBody => k = tokens.length ∧ textAt? tokens (tokens.length - 1) = some "->"
  | expectedClosingParen => MissingAt tokens k ")"
  | expectedRightOperand operator =>
    k = tokens.length ∧ textAt? tokens (tokens.length - 1) = some operator ∧
      operator ∈ ["==", "!=", "<", ">", "<=", ">=", "+", "-", "*", "/"]
  | internal reason => internal reason = tooNested ∨ internal reason = tooDeep

/-! ## Tokens by their index -/

section Index

variable {tokens passed rest front : List Token} {token : Token} {word : String} {i k : Nat}

theorem getElem?_passed : (passed ++ rest)[passed.length]? = rest.head? := by
  rw [List.getElem?_append_right (Nat.le_refl _), Nat.sub_self, List.head?_eq_getElem?]

theorem getElem?_eq (h : tokens = front ++ token :: rest) (hi : front.length = i) :
    tokens[i]? = some token := by
  subst h hi
  exact getElem?_passed

theorem textAt?_eq (h : tokens = front ++ token :: rest) (hi : front.length = i)
    (hword : token.text = word) : textAt? tokens i = some word := by
  rw [textAt?, getElem?_eq h hi, Option.map_some, hword]

theorem NameAt.intro (h : tokens = front ++ token :: rest) (hi : front.length = i)
    (hname : token.isNameShaped = true) : NameAt tokens i :=
  ⟨token, getElem?_eq h hi, hname⟩

/-- The tokens behind a token and up to an index. -/
theorem extract_eq {middle : List Token} (h : tokens = front ++ token :: (middle ++ rest))
    (hi : front.length + 1 = i) (hk : i + middle.length = k) : tokens.extract i k = middle := by
  subst h hi hk
  simp [List.drop_append, List.drop_eq_nil_of_le]

theorem textAt?_passed_ne (h : ∀ token ∈ rest.head?, token.text ≠ word) :
    textAt? (passed ++ rest) passed.length ≠ some word := by
  rw [textAt?, getElem?_passed, ne_eq, Option.map_eq_some_iff]
  exact fun ⟨token, hhead, htext⟩ => h token hhead htext

theorem not_nameAt_passed (h : ∀ token ∈ rest.head?, token.isNameShaped = false) :
    ¬ NameAt (passed ++ rest) passed.length := by
  rintro ⟨token, hhead, hname⟩
  rw [getElem?_passed] at hhead
  rw [h token hhead] at hname
  cases hname

theorem missingAt_passed (h : EndsBut word rest) :
    MissingAt (passed ++ rest) passed.length word := by
  intro text htext
  rw [textAt?, getElem?_passed] at htext
  obtain ⟨token, hhead, rfl⟩ := Option.map_eq_some_iff.mp htext
  exact h token hhead

end Index

/-! ## What the grounds say of the tokens -/

theorem Grounds.trueAt {passed rest : List Token} {cause : Cause} {line : Nat}
    (h : Grounds passed rest cause line) : cause.TrueAt (passed ++ rest) passed.length := by
  cases h with
  | unexpectedEnd hrest => simp [Cause.TrueAt, hrest]
  | unexpectedToken hrest hstray => exact ⟨_, getElem?_passed.trans hrest, rfl, hstray⟩
  | @rightOperand front operator hpassed hoperator hrest =>
    refine ⟨by simp [hrest], ?_, Token.isBinaryOperator_iff.mp hoperator⟩
    exact textAt?_eq (by rw [hpassed, List.append_assoc]; rfl) (by simp [hpassed, hrest]) rfl
  | closingParen hrest => exact missingAt_passed hrest
  | @letName front letWord hpassed hlet hrest =>
    refine ⟨front.length, by simp [hpassed], ?_, not_nameAt_passed hrest⟩
    exact textAt?_eq (by rw [hpassed, List.append_assoc]; rfl) rfl hlet
  | @letEquals front letWord name hpassed hlet hname hrest =>
    have hwhole : passed ++ rest = (front ++ [letWord]) ++ name :: rest := by simp [hpassed]
    refine ⟨front.length, by simp [hpassed], ?_, ?_, textAt?_passed_ne hrest⟩
    · exact textAt?_eq (by rw [hpassed, List.append_assoc]; rfl) rfl hlet
    · exact NameAt.intro hwhole List.length_append hname
  | letIn _ _ _ _ _ hrest => exact missingAt_passed hrest
  | thenWord _ _ _ hrest => exact missingAt_passed hrest
  | elseWord _ _ _ _ _ hrest => exact missingAt_passed hrest
  | @arrow front parameters fnWord hpassed hfn hparameters hrest harrow =>
    have hlength : passed.length = front.length + (parameters.length + 1) := by simp [hpassed]
    have hwhole : passed ++ rest = front ++ fnWord :: (parameters ++ rest) := by simp [hpassed]
    refine ⟨front.length, by omega, textAt?_eq hwhole rfl hfn, ?_, not_nameAt_passed hrest, ?_⟩
    · rwa [extract_eq hwhole rfl (by omega)]
    · refine harrow.imp (fun hnone => ?_) textAt?_passed_ne
      rw [hlength, hnone]
      rfl
  | @functionBody front parameters fnWord arrow hpassed _ _ _ harrow hrest =>
    have hwhole : passed ++ rest = (front ++ fnWord :: parameters) ++ arrow :: rest := by
      simp [hpassed]
    refine ⟨by simp [hrest], textAt?_eq hwhole ?_ harrow⟩
    simp [hpassed, hrest]
  | tooNested => exact .inl rfl
  | tooDeep => exact .inr rfl

/-- Every error is reported at one of the tokens or behind the last one, and it is
true of the tokens there. -/
theorem trueAt_of_parse_eq_error {tokens : List Token} {source : String} {error : Error}
    (h : parse tokens source = .error error) :
    error.position.tokenIndex ≤ tokens.length ∧
      error.cause.TrueAt tokens error.position.tokenIndex := by
  obtain ⟨passed, rest, rfl, hindex, hgrounds⟩ := exists_grounds h
  rw [← hindex]
  exact ⟨by simp, hgrounds.trueAt⟩

/-- The `then` of the inner `if` is missing in front of an `in`. -/
theorem trueAt_of_parse_if :
    let tokens := tokenize "let x =\nif a then if b 2\nin 3"
    let error : Error := ⟨.expectedThen, ⟨2, 9⟩, "if a then if b 2"⟩
    parse tokens "let x =\nif a then if b 2\nin 3" = .error error ∧
      error.position.tokenIndex ≤ tokens.length ∧
        error.cause.TrueAt tokens error.position.tokenIndex := by
  intro tokens error
  have herror : parse tokens "let x =\nif a then if b 2\nin 3" = .error error := by decide +kernel
  exact ⟨herror, trueAt_of_parse_eq_error herror⟩

end MlFront
