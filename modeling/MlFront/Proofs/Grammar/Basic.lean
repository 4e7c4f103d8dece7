import MlFront.Proofs.Token.Spelling

/-!
# The grammar

`Derives category levels tokens node`: the tokens are a phrase of the category,
and `node` is its tree. The grammar is written over the texts of tokens:

    expression     ::= let NAME = expression in expression
                     | if expression then expression else expression
                     | fn NAME+ -> expression
                     | relational            not starting with let, if, fn
    relational     ::= relational (== != < > <= >=) additive | additive
    additive       ::= additive (+ -) multiplicative | multiplicative
    multiplicative ::= multiplicative (* /) application | application
    application    ::= primary primary*      no argument starting with in, then, else
    primary        ::= NUMBER | true | false | NAME | ( expression )

`levels` is the number of expressions that may be open at once, the phrase
itself among them when it is an expression: an expression in parentheses, the
value of a `let`, the condition and the first branch of an `if` are one level
further in, the last expression of a form is on the level of the form.
-/

namespace MlFront.Grammar

/-- The categories of phrases. The operations of power `primary` are the applications. -/
inductive Category where
  | expression
  | operation (power : Power)
  | application
  | primary
  deriving DecidableEq, Repr

/-- The operators of each power. -/
def operators : Power → List String
  | .relational => ["==", "!=", "<", ">", "<=", ">="]
  | .additive => ["+", "-"]
  | .multiplicative => ["*", "/"]
  | .primary => []

/-- The words that start a form wherever an expression starts. -/
def openers : List String :=
  ["let", "if", "fn"]

/-- The words that go on with a form and so are no arguments. -/
def closers : List String :=
  ["in", "then", "else"]

/-- The tokens that end an expression. -/
def terminators : List String :=
  [")", ";"] ++ closers

/-- The word that starts a form. -/
def openerOf : Form → String
  | .letIn => "let"
  | .ifThenElse => "if"
  | .function => "fn"

/-- Whether the first of the tokens is one of the words. -/
def StartsWith (words : List String) (tokens : List Token) : Prop :=
  ∃ token ∈ tokens.head?, token.text ∈ words

/-- The tokens are a phrase of the category with the given tree. -/
inductive Derives : Category → Nat → List Token → Node → Prop where
  | letIn {levels : Nat} {letWord name equals inWord : Token} {value body : List Token}
      {valueNode bodyNode : Node} (hlet : letWord.text = "let") (hname : name.isNameShaped = true)
      (hequals : equals.text = "=") (hvalue : Derives .expression levels value valueNode)
      (hin : inWord.text = "in") (hbody : Derives .expression (levels + 1) body bodyNode) :
      Derives .expression (levels + 1)
        (letWord :: name :: equals :: (value ++ inWord :: body))
        (.letBind name.text valueNode bodyNode)
  | ifThenElse {levels : Nat} {ifWord thenWord elseWord : Token}
      {condition first last : List Token} {conditionNode firstNode lastNode : Node}
      (hif : ifWord.text = "if") (hcondition : Derives .expression levels condition conditionNode)
      (hthen : thenWord.text = "then") (hfirst : Derives .expression levels first firstNode)
      (helse : elseWord.text = "else") (hlast : Derives .expression (levels + 1) last lastNode) :
      Derives .expression (levels + 1)
        (ifWord :: (condition ++ thenWord :: (first ++ elseWord :: last)))
        (.branch conditionNode firstNode lastNode)
  | function {levels : Nat} {fnWord arrow : Token} {parameters body : List Token}
      {bodyNode : Node} (hfn : fnWord.text = "fn") (hsome : parameters ≠ [])
      (hparameters : ∀ parameter ∈ parameters, parameter.isNameShaped = true)
      (harrow : arrow.text = "->") (hbody : Derives .expression (levels + 1) body bodyNode) :
      Derives .expression (levels + 1) (fnWord :: (parameters ++ arrow :: body))
        (.lambda (parameters.map (·.text)) bodyNode)
  | operation {levels : Nat} {tokens : List Token} {node : Node}
      (h : Derives (.operation .relational) levels tokens node)
      (hopen : ¬ StartsWith openers tokens) : Derives .expression (levels + 1) tokens node
  | binary {power : Power} {levels : Nat} {operator : Token} {left right : List Token}
      {leftNode rightNode : Node} (hleft : Derives (.operation power) levels left leftNode)
      (hoperator : operator.text ∈ operators power)
      (hright : Derives (.operation power.tighter) levels right rightNode) :
      Derives (.operation power) levels (left ++ operator :: right)
        (.binary operator.text leftNode rightNode)
  | tighter {power : Power} {levels : Nat} {tokens : List Token} {node : Node}
      (hpower : power ≠ .primary) (h : Derives (.operation power.tighter) levels tokens node) :
      Derives (.operation power) levels tokens node
  | operand {levels : Nat} {tokens : List Token} {node : Node}
      (h : Derives .application levels tokens node) :
      Derives (.operation .primary) levels tokens node
  | callee {levels : Nat} {tokens : List Token} {node : Node}
      (h : Derives .primary levels tokens node) : Derives .application levels tokens node
  | apply {levels : Nat} {callee : List Token} {calleeNode : Node}
      {arguments : List (List Token × Node)} (hcallee : Derives .primary levels callee calleeNode)
      (hsome : arguments ≠ [])
      (hclose : ∀ argument ∈ arguments, ¬ StartsWith closers argument.1)
      (harguments : ∀ argument ∈ arguments, Derives .primary levels argument.1 argument.2) :
      Derives .application levels (callee ++ arguments.flatMap Prod.fst)
        (.apply calleeNode (arguments.map Prod.snd))
  | number {levels : Nat} {token : Token} (h : isNumberShaped token.text.toList = true) :
      Derives .primary levels [token] (.literal .number token.text)
  | boolean {levels : Nat} {token : Token} (h : token.text ∈ ["true", "false"]) :
      Derives .primary levels [token] (.literal .boolean token.text)
  | name {levels : Nat} {token : Token} (hname : token.isNameShaped = true)
      (hword : token.text ∉ ["true", "false"]) :
      Derives .primary levels [token] (.identifier token.text)
  | group {levels : Nat} {openParen closeParen : Token} {tokens : List Token} {node : Node}
      (hopen : openParen.text = "(") (h : Derives .expression levels tokens node)
      (hclose : closeParen.text = ")") :
      Derives .primary levels (openParen :: (tokens ++ [closeParen])) node

/-- The tokens are a form up to its last expression. -/
inductive Opens (levels : Nat) : List Token → OpenForm → Prop where
  | letIn {letWord name equals inWord : Token} {value : List Token} {valueNode : Node}
      (hlet : letWord.text = "let") (hname : name.isNameShaped = true)
      (hequals : equals.text = "=") (hvalue : Derives .expression levels value valueNode)
      (hin : inWord.text = "in") :
      Opens levels (letWord :: name :: equals :: (value ++ [inWord])) (.letIn name.text valueNode)
  | ifThenElse {ifWord thenWord elseWord : Token} {condition first : List Token}
      {conditionNode firstNode : Node} (hif : ifWord.text = "if")
      (hcondition : Derives .expression levels condition conditionNode)
      (hthen : thenWord.text = "then") (hfirst : Derives .expression levels first firstNode)
      (helse : elseWord.text = "else") :
      Opens levels (ifWord :: (condition ++ thenWord :: (first ++ [elseWord])))
        (.ifThenElse conditionNode firstNode)
  | function {fnWord arrow : Token} {parameters : List Token} (hfn : fnWord.text = "fn")
      (hsome : parameters ≠ []) (hparameters : ∀ token ∈ parameters, token.isNameShaped = true)
      (harrow : arrow.text = "->") :
      Opens levels (fnWord :: (parameters ++ [arrow])) (.function (parameters.map (·.text)))

/-- The node with open forms closed around it, the innermost form first. -/
def closed (forms : List OpenForm) (node : Node) : Node :=
  forms.foldl (fun node form => form.close node) node

/-! ## Words and tables -/

@[simp] theorem startsWith_cons {words : List String} {token : Token} {rest : List Token} :
    StartsWith words (token :: rest) ↔ token.text ∈ words := by
  simp [StartsWith]

theorem startsWith_append {words : List String} {tokens rest : List Token} (h : tokens ≠ []) :
    StartsWith words (tokens ++ rest) ↔ StartsWith words tokens := by
  cases tokens with
  | nil => exact absurd rfl h
  | cons token more => simp

theorem isTerminator_iff {token : Token} :
    token.isTerminator = true ↔ token.text ∈ terminators :=
  Token.isTerminator_iff

theorem standardForm_eq_iff {token : Token} {form : Form} :
    Tables.standardForm token.kind = some form ↔ token.text = openerOf form := by
  have h := Kind.ofText_mem_iff (fun kind => Tables.standardForm kind == some form)
    (by cases form <;> decide) token.text
  simp only [beq_iff_eq] at h
  refine h.trans ?_
  cases form <;>
    simp [Kind.spelled, Kind.reserved, Kind.operators, Kind.punctuation, Tables.standardForm,
      openerOf]

theorem standardForm_eq_none_iff {token : Token} :
    Tables.standardForm token.kind = none ↔ token.text ∉ openers := by
  constructor
  · intro h hmem
    have hform : ∃ form, token.text = openerOf form := by
      simp only [openers, List.mem_cons, List.not_mem_nil, or_false] at hmem
      rcases hmem with hw | hw | hw
      · exact ⟨.letIn, hw⟩
      · exact ⟨.ifThenElse, hw⟩
      · exact ⟨.function, hw⟩
    obtain ⟨form, hform⟩ := hform
    rw [standardForm_eq_iff.mpr hform] at h
    cases h
  · intro h
    cases hf : Tables.standardForm token.kind with
    | none => rfl
    | some form =>
      refine absurd ?_ h
      rw [standardForm_eq_iff.mp hf]
      cases form <;> decide

theorem standardPower_eq_iff {token : Token} {power : Power} :
    Tables.standardPower token.kind = some power ↔ token.text ∈ operators power := by
  have h := Kind.ofText_mem_iff (fun kind => Tables.standardPower kind == some power)
    (by cases power <;> decide) token.text
  simp only [beq_iff_eq] at h
  refine h.trans ?_
  cases power <;>
    simp [Kind.spelled, Kind.reserved, Kind.operators, Kind.punctuation, Tables.standardPower,
      operators]
  grind

/-! ## Phrases -/

theorem Derives.ne_nil {category : Category} {levels : Nat} {tokens : List Token} {node : Node}
    (h : Derives category levels tokens node) : tokens ≠ [] := by
  induction h with
  | operation _ _ ih | tighter _ _ ih | operand _ ih | callee _ ih => exact ih
  | apply _ _ _ _ ih => simp [ih]
  | _ => simp

/-- An operation is also an operation of every looser power. -/
theorem Derives.loosen {power looser : Power} {levels : Nat} {tokens : List Token} {node : Node}
    (h : Derives (.operation power) levels tokens node) (hle : looser.rank ≤ power.rank) :
    Derives (.operation looser) levels tokens node := by
  by_cases heq : looser = power
  · exact heq ▸ h
  · have hne : looser ≠ .primary := by
      rintro rfl
      cases power <;> simp_all [Power.rank]
    have hle' : looser.tighter.rank ≤ power.rank := by
      cases looser <;> cases power <;> simp_all [Power.rank, Power.tighter]
    exact .tighter hne (h.loosen hle')
  termination_by 3 - looser.rank
  decreasing_by cases looser <;> simp_all [Power.rank, Power.tighter]

/-- A phrase stays one when more expressions may be open. -/
theorem Derives.mono {category : Category} {levels more : Nat} {tokens : List Token} {node : Node}
    (h : Derives category levels tokens node) (hle : levels ≤ more) :
    Derives category more tokens node := by
  induction h generalizing more with
  | letIn hlet hname hequals _ hin _ ihvalue ihbody =>
    obtain ⟨more, rfl⟩ := Nat.exists_eq_add_of_le' hle
    exact .letIn hlet hname hequals (ihvalue (Nat.le_add_left _ _)) hin (ihbody hle)
  | ifThenElse hif _ hthen _ helse _ ihcondition ihfirst ihlast =>
    obtain ⟨more, rfl⟩ := Nat.exists_eq_add_of_le' hle
    exact .ifThenElse hif (ihcondition (Nat.le_add_left _ _)) hthen (ihfirst (Nat.le_add_left _ _))
      helse (ihlast hle)
  | function hfn hsome hparameters harrow _ ihbody =>
    obtain ⟨more, rfl⟩ := Nat.exists_eq_add_of_le' hle
    exact .function hfn hsome hparameters harrow (ihbody hle)
  | operation _ hopen ih =>
    obtain ⟨more, rfl⟩ := Nat.exists_eq_add_of_le' hle
    exact .operation (ih (Nat.le_add_left _ _)) hopen
  | binary _ hoperator _ ihleft ihright => exact .binary (ihleft hle) hoperator (ihright hle)
  | tighter hpower _ ih => exact .tighter hpower (ih hle)
  | operand _ ih => exact .operand (ih hle)
  | callee _ ih => exact .callee (ih hle)
  | apply _ hsome hclose _ ihcallee iharguments =>
    exact .apply (ihcallee hle) hsome hclose fun argument hmem => iharguments argument hmem hle
  | number h => exact .number h
  | boolean h => exact .boolean h
  | name hname hword => exact .name hname hword
  | group hopen _ hclose ih => exact .group hopen (ih hle) hclose

/-- An open form and its last expression are an expression. -/
theorem Opens.close {levels : Nat} {tokens body : List Token} {form : OpenForm} {node : Node}
    (h : Opens levels tokens form) (hbody : Derives .expression (levels + 1) body node) :
    Derives .expression (levels + 1) (tokens ++ body) (form.close node) := by
  cases h with
  | letIn hlet hname hequals hvalue hin =>
    simpa [OpenForm.close] using Derives.letIn hlet hname hequals hvalue hin hbody
  | ifThenElse hif hcondition hthen hfirst helse =>
    simpa [OpenForm.close] using Derives.ifThenElse hif hcondition hthen hfirst helse hbody
  | function hfn hsome hparameters harrow =>
    simpa [OpenForm.close] using Derives.function hfn hsome hparameters harrow hbody

end MlFront.Grammar
