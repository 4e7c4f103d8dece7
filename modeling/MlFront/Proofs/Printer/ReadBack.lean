import MlFront.Proofs.Printer.Basic

/-!
# The print of a tree is a phrase

`ReadsBack node`: tokens with the texts of the print of the node derive the node,
as long as the expressions in the print have enough levels and none of them
starts with a name that starts a form. Every tree that is built by the functions
that make nodes, from texts of the right shape, reads back (`readsBack`).
-/

namespace MlFront.Grammar

/-- The category of the print of a node that stands alone. -/
def categoryOf : Node → Category
  | .literal .. | .identifier _ => .primary
  | .binaryOp operator .. => .operation (powerOf operator)
  | .application .. => .application
  | .function .. | .letIn .. | .ifThenElse .. => .expression

/-- The levels of a phrase that leaves some levels to the expressions inside it. -/
def Category.room (levels : Nat) : Category → Nat
  | .expression => levels + 1
  | .operation _ | .application | .primary => levels

/-- The category of what stands in a slot. -/
def slotCategory : Slot → Category
  | .operand power => .operation power
  | .callee | .argument => .primary

/-- The expression is within the limit on levels, and no name in front of it is
taken for the start of a form. -/
def Fits (limit : Nat) (expression : Nat × Node) : Prop :=
  expression.1 ≤ limit ∧ ∀ name ∈ expression.2.firstName, name ∉ openers

/-- Tokens with the texts of the print of the node derive the node. -/
def ReadsBack (node : Node) : Prop :=
  ∀ (level levels : Nat) (tokens : List Token),
    (∀ expression ∈ node.expressionsFrom level, Fits (level + levels) expression) →
      tokens.map (·.text) = node.print →
        Derives (categoryOf node) ((categoryOf node).room levels) tokens node

/-! ## Operators and slots -/

theorem powerOf_eq {operator : String} {power : Power} (h : operator ∈ operators power) :
    powerOf operator = power := by
  let token : Token := ⟨operator, 1⟩
  have hpower : Tables.standardPower token.kind = some power := standardPower_eq_iff.mpr h
  show (Tables.standardPower token.kind).getD .primary = power
  rw [hpower]
  rfl

theorem mem_operators_powerOf {operator : String}
    (h : operator ∈ ["==", "!=", "<", ">", "<=", ">=", "+", "-", "*", "/"]) :
    operator ∈ operators (powerOf operator) := by
  have hall : ∀ operator ∈ ["==", "!=", "<", ">", "<=", ">=", "+", "-", "*", "/"],
      operator ∈ operators (powerOf operator) := by decide
  exact hall operator h

theorem categoryOf_ne_expression {slot : Slot} {node : Node} (h : slot.wraps node = false) :
    categoryOf node ≠ .expression := by
  cases slot <;> cases node <;> simp_all [Slot.wraps, categoryOf]

/-! ## What a print starts with -/

/-- A literal is no word that starts a form or goes on with one. -/
theorem not_mem_words_of_literal {kind : LiteralKind} {value : String}
    (h : (Node.literal kind value).WellShaped) : value ∉ openers ++ closers := by
  intro hmem
  have hall : ∀ word ∈ openers ++ closers,
      isNumberShaped word.toList = false ∧ word ∉ ["true", "false"] := by decide
  obtain ⟨hnumber, hboolean⟩ := hall value hmem
  cases h with
  | number h =>
    rw [hnumber] at h
    cases h
  | boolean h => exact hboolean h

/-- Only an identifier brings a word that starts a form to the front of a print. -/
theorem firstName_of_head {node : Node} (hshaped : node.WellShaped)
    (hcategory : categoryOf node ≠ .expression) (rest : List String) :
    ∀ text ∈ (node.print ++ rest).head?, text ∈ openers → text ∈ node.firstName := by
  induction hshaped generalizing rest with
  | number h =>
    rintro text ⟨⟩ hmem
    exact absurd (List.mem_append_left _ hmem) (not_mem_words_of_literal (.number h))
  | boolean h =>
    rintro text ⟨⟩ hmem
    exact absurd (List.mem_append_left _ hmem) (not_mem_words_of_literal (.boolean h))
  | identifier =>
    rintro text ⟨⟩ -
    exact rfl
  | binaryOp _ _ _ ih _ | application _ _ _ ih _ =>
    -- the print of the first child comes first, unless it is in parentheses
    rw [Node.print, Node.firstName, Slot.write, List.append_assoc]
    split
    · rintro text ⟨⟩ hmem
      exact absurd hmem (by decide)
    · next hwraps => exact ih (categoryOf_ne_expression (Bool.eq_false_iff.mpr hwraps)) _
  | function | letIn | ifThenElse => exact absurd rfl hcategory

theorem not_startsWith_openers {node : Node} {tokens : List Token} (hshaped : node.WellShaped)
    (hcategory : categoryOf node ≠ .expression) (htexts : tokens.map (·.text) = node.print)
    (hname : ∀ name ∈ node.firstName, name ∉ openers) : ¬ StartsWith openers tokens := by
  rintro ⟨token, hhead, hmem⟩
  have htext : token.text ∈ (node.print ++ []).head? := by
    rw [List.append_nil, ← htexts, List.head?_map, Option.mem_def.mp hhead]
    rfl
  exact hname _ (firstName_of_head hshaped hcategory [] _ htext hmem) hmem

/-! ## Nodes in slots -/

section Slots

variable {node : Node} {level levels : Nat} {tokens : List Token}

/-- A node that needs no parentheses in an operand is an operation of its power. -/
theorem Derives.asOperation {power : Power}
    (h : Derives (categoryOf node) ((categoryOf node).room levels) tokens node)
    (hwraps : (Slot.operand power).wraps node = false) :
    Derives (.operation power) levels tokens node := by
  have hprimary : power.rank ≤ Power.primary.rank := by cases power <;> decide
  cases node with
  | literal | identifier => exact (Derives.operand (.callee h)).loosen hprimary
  | application => exact (Derives.operand h).loosen hprimary
  | binaryOp operator left right depth =>
    refine Derives.loosen h ?_
    simpa [Slot.wraps, Power.lt_iff] using hwraps
  | function | letIn | ifThenElse => cases hwraps

/-- A node alone is an expression. -/
theorem Derives.asExpression
    (h : Derives (categoryOf node) ((categoryOf node).room levels) tokens node)
    (hshaped : node.WellShaped) (htexts : tokens.map (·.text) = node.print)
    (hname : ∀ name ∈ node.firstName, name ∉ openers) :
    Derives .expression (levels + 1) tokens node := by
  by_cases hcategory : categoryOf node = .expression
  · rw [hcategory] at h
    exact h
  · refine .operation (h.asOperation ?_) (not_startsWith_openers hshaped hcategory htexts hname)
    cases node with
    | binaryOp operator => cases hpower : powerOf operator <;> simp [Slot.wraps, hpower] <;> decide
    | literal | identifier | application => rfl
    | function | letIn | ifThenElse => exact absurd rfl hcategory

/-- A node that reads back is an expression one level further in. -/
theorem ReadsBack.inside (h : ReadsBack node) (hshaped : node.WellShaped)
    (hfits : ∀ expression ∈ (level + 1, node) :: node.expressionsFrom (level + 1),
      Fits (level + levels) expression)
    (htexts : tokens.map (·.text) = node.print) : Derives .expression levels tokens node := by
  obtain ⟨⟨hlevel, hname⟩, hinside⟩ := List.forall_mem_cons.mp hfits
  obtain ⟨more, rfl⟩ : ∃ more, levels = more + 1 := by
    refine Nat.exists_eq_succ_of_ne_zero fun hzero => ?_
    simp only at hlevel
    omega
  refine (h (level + 1) more tokens (fun expression hmem => ?_) htexts).asExpression hshaped
    htexts hname
  rw [Nat.add_assoc, Nat.add_comm 1]
  exact hinside expression hmem

/-- A node that reads back does so in a slot. -/
theorem ReadsBack.slot (h : ReadsBack node) (hshaped : node.WellShaped) (slot : Slot)
    (hfits : ∀ expression ∈ slot.expressions node node.expressionsFrom level,
      Fits (level + levels) expression)
    (htexts : tokens.map (·.text) = slot.write node node.print) :
    Derives (slotCategory slot) levels tokens node := by
  unfold Slot.expressions at hfits
  unfold Slot.write at htexts
  split at htexts
  · next hwraps =>
    rw [if_pos hwraps] at hfits
    obtain ⟨openParen, others, rfl, hopen, hothers⟩ := List.map_eq_cons_iff.mp htexts
    obtain ⟨inside, closing, rfl, hprint, hclosing⟩ := List.map_eq_append_iff.mp hothers
    obtain ⟨closeParen, rfl, hclose⟩ := List.map_eq_singleton_iff.mp hclosing
    have hgroup : Derives .primary levels (openParen :: (inside ++ [closeParen])) node :=
      .group hopen (h.inside hshaped hfits hprint) hclose
    cases slot with
    | operand power => exact (Derives.operand (.callee hgroup)).loosen (by cases power <;> decide)
    | callee | argument => exact hgroup
  · next hwraps =>
    have hfalse : slot.wraps node = false := Bool.eq_false_iff.mpr hwraps
    rw [if_neg hwraps] at hfits
    have hself := h level levels tokens hfits htexts
    cases slot with
    | operand power => exact hself.asOperation hfalse
    | callee | argument =>
      cases node with
      | literal | identifier => exact hself
      | _ => cases hfalse

theorem not_startsWith_closers (hshaped : node.WellShaped)
    (htexts : tokens.map (·.text) = Slot.argument.write node node.print) :
    ¬ StartsWith closers tokens := by
  rintro ⟨token, hhead, hmem⟩
  have htext : token.text ∈ (Slot.argument.write node node.print).head? := by
    rw [← htexts, List.head?_map, Option.mem_def.mp hhead]
    rfl
  unfold Slot.write at htext
  split at htext
  · obtain heq : "(" = token.text := Option.some.inj htext
    rw [← heq] at hmem
    exact absurd hmem (by decide)
  · next hwraps =>
    cases node with
    | literal kind value =>
      obtain rfl : value = token.text := Option.some.inj htext
      exact not_mem_words_of_literal hshaped (List.mem_append_right _ hmem)
    | identifier name =>
      obtain rfl : name = token.text := Option.some.inj htext
      exact hwraps (List.contains_iff_mem.mpr hmem)
    | _ => exact hwraps rfl

/-- Arguments that read back are arguments, each on tokens of its own. -/
theorem derives_arguments {arguments : List Node}
    (hread : ∀ argument ∈ arguments, ReadsBack argument)
    (hshaped : ∀ argument ∈ arguments, argument.WellShaped)
    (hfits : ∀ expression ∈ Node.expressionsFromAll arguments level,
      Fits (level + levels) expression)
    (htexts : tokens.map (·.text) = Node.printAll arguments) :
    ∃ phrases : List (List Token × Node),
      phrases.map Prod.snd = arguments ∧ phrases.flatMap Prod.fst = tokens ∧
        ∀ phrase ∈ phrases,
          ¬ StartsWith closers phrase.1 ∧ Derives .primary levels phrase.1 phrase.2 := by
  induction arguments generalizing tokens with
  | nil => exact ⟨[], rfl, (List.map_eq_nil_iff.mp htexts).symm, by simp⟩
  | cons argument rest ih =>
    rw [List.forall_mem_cons] at hread hshaped
    rw [Node.expressionsFromAll, List.forall_mem_append] at hfits
    rw [Node.printAll] at htexts
    obtain ⟨first, others, rfl, hfirst, hothers⟩ := List.map_eq_append_iff.mp htexts
    obtain ⟨phrases, rfl, rfl, hphrases⟩ := ih hread.2 hshaped.2 hfits.2 hothers
    refine ⟨(first, argument) :: phrases, rfl, rfl, List.forall_mem_cons.mpr ⟨⟨?_, ?_⟩, hphrases⟩⟩
    · exact not_startsWith_closers hshaped.1 hfirst
    · exact hread.1.slot hshaped.1 .argument hfits.1 hfirst

end Slots

/-! ## Each sort of nodes -/

section Sorts

variable {left right value body callee condition thenBranch elseBranch : Node}

theorem ReadsBack.binary {operator : String}
    (hoperator : operator ∈ ["==", "!=", "<", ">", "<=", ">=", "+", "-", "*", "/"])
    (hleft : ReadsBack left) (hleft' : left.WellShaped)
    (hright : ReadsBack right) (hright' : right.WellShaped) :
    ReadsBack (.binary operator left right) := by
  intro level levels tokens hfits htexts
  unfold Node.binary at hfits htexts
  rw [Node.expressionsFrom, List.forall_mem_append] at hfits
  rw [Node.print] at htexts
  obtain ⟨leftTokens, others, rfl, hleftTexts, hothers⟩ := List.map_eq_append_iff.mp htexts
  obtain ⟨token, rightTokens, rfl, rfl, hrightTexts⟩ := List.map_eq_cons_iff.mp hothers
  exact .binary (hleft.slot hleft' _ hfits.1 hleftTexts) (mem_operators_powerOf hoperator)
    (hright.slot hright' _ hfits.2 hrightTexts)

theorem ReadsBack.lambda {parameters : List String} (hsome : parameters ≠ [])
    (hparameters : ∀ parameter ∈ parameters, isNameShaped parameter.toList = true)
    (hbody : ReadsBack body) (hbody' : body.WellShaped) :
    ReadsBack (.lambda parameters body) := by
  intro level levels tokens hfits htexts
  unfold Node.lambda at hfits htexts
  rw [Node.expressionsFrom, List.forall_mem_cons] at hfits
  rw [Node.print] at htexts
  obtain ⟨fnWord, others, rfl, hfn, hothers⟩ := List.map_eq_cons_iff.mp htexts
  obtain ⟨names, ending, rfl, rfl, hending⟩ := List.map_eq_append_iff.mp hothers
  obtain ⟨arrow, bodyTokens, rfl, harrow, hbodyTexts⟩ := List.map_eq_cons_iff.mp hending
  refine .function hfn (by simpa using hsome) (fun name hmem => ?_) harrow
    ((hbody _ _ _ hfits.2 hbodyTexts).asExpression hbody' hbodyTexts hfits.1.2)
  exact hparameters name.text (List.mem_map_of_mem hmem)

theorem ReadsBack.apply {arguments : List Node} (hcallee : ReadsBack callee)
    (hcallee' : callee.WellShaped) (hsome : arguments ≠ [])
    (harguments : ∀ argument ∈ arguments, ReadsBack argument)
    (harguments' : ∀ argument ∈ arguments, argument.WellShaped) :
    ReadsBack (.apply callee arguments) := by
  intro level levels tokens hfits htexts
  unfold Node.apply at hfits htexts
  rw [Node.expressionsFrom, List.forall_mem_append] at hfits
  rw [Node.print] at htexts
  obtain ⟨calleeTokens, others, rfl, hcalleeTexts, hothers⟩ := List.map_eq_append_iff.mp htexts
  obtain ⟨phrases, rfl, rfl, hphrases⟩ :=
    derives_arguments harguments harguments' hfits.2 hothers
  refine .apply (hcallee.slot hcallee' .callee hfits.1 hcalleeTexts) (by simpa using hsome)
    (fun phrase hmem => (hphrases phrase hmem).1) fun phrase hmem => (hphrases phrase hmem).2

theorem ReadsBack.letBind {name : String} (hname : isNameShaped name.toList = true)
    (hvalue : ReadsBack value) (hvalue' : value.WellShaped) (hbody : ReadsBack body)
    (hbody' : body.WellShaped) : ReadsBack (.letBind name value body) := by
  intro level levels tokens hfits htexts
  unfold Node.letBind at hfits htexts
  rw [Node.expressionsFrom, List.forall_mem_append, List.forall_mem_cons (a := (level, body))]
    at hfits
  rw [Node.print] at htexts
  obtain ⟨letWord, afterLet, rfl, hlet, hafterLet⟩ := List.map_eq_cons_iff.mp htexts
  obtain ⟨token, afterName, rfl, rfl, hafterName⟩ := List.map_eq_cons_iff.mp hafterLet
  obtain ⟨equals, afterEquals, rfl, hequals, hafterEquals⟩ := List.map_eq_cons_iff.mp hafterName
  obtain ⟨valueTokens, ending, rfl, hvalueTexts, hending⟩ := List.map_eq_append_iff.mp hafterEquals
  obtain ⟨inWord, bodyTokens, rfl, hin, hbodyTexts⟩ := List.map_eq_cons_iff.mp hending
  exact .letIn hlet hname hequals (hvalue.inside hvalue' hfits.1 hvalueTexts) hin
    ((hbody _ _ _ hfits.2.2 hbodyTexts).asExpression hbody' hbodyTexts hfits.2.1.2)

theorem ReadsBack.branch (hcondition : ReadsBack condition) (hcondition' : condition.WellShaped)
    (hthen : ReadsBack thenBranch) (hthen' : thenBranch.WellShaped) (helse : ReadsBack elseBranch)
    (helse' : elseBranch.WellShaped) : ReadsBack (.branch condition thenBranch elseBranch) := by
  intro level levels tokens hfits htexts
  unfold Node.branch at hfits htexts
  rw [Node.expressionsFrom, List.forall_mem_append, List.forall_mem_append,
    List.forall_mem_cons (a := (level, elseBranch))] at hfits
  rw [Node.print] at htexts
  obtain ⟨ifWord, afterIf, rfl, hif, hafterIf⟩ := List.map_eq_cons_iff.mp htexts
  obtain ⟨conditionTokens, choice, rfl, hconditionTexts, hchoice⟩ :=
    List.map_eq_append_iff.mp hafterIf
  obtain ⟨thenWord, afterThen, rfl, hthenWord, hafterThen⟩ := List.map_eq_cons_iff.mp hchoice
  obtain ⟨thenTokens, ending, rfl, hthenTexts, hending⟩ := List.map_eq_append_iff.mp hafterThen
  obtain ⟨elseWord, elseTokens, rfl, helseWord, helseTexts⟩ := List.map_eq_cons_iff.mp hending
  exact .ifThenElse hif (hcondition.inside hcondition' hfits.1 hconditionTexts) hthenWord
    (hthen.inside hthen' hfits.2.1 hthenTexts) helseWord
    ((helse _ _ _ hfits.2.2.2 helseTexts).asExpression helse' helseTexts hfits.2.2.1.2)

end Sorts

theorem readsBack {node : Node} (hbuilt : node.Built) (hshaped : node.WellShaped) :
    ReadsBack node := by
  induction hbuilt with
  | literal =>
    intro level levels tokens _ htexts
    obtain ⟨token, rfl, rfl⟩ := List.map_eq_singleton_iff.mp htexts
    cases hshaped with
    | number h => exact .number h
    | boolean h => exact .boolean h
  | identifier =>
    intro level levels tokens _ htexts
    obtain ⟨token, rfl, rfl⟩ := List.map_eq_singleton_iff.mp htexts
    cases hshaped with
    | identifier hname hword => exact .name hname hword
  | binary _ _ ihleft ihright =>
    cases hshaped with
    | binaryOp hoperator hleft hright =>
      exact .binary hoperator (ihleft hleft) hleft (ihright hright) hright
  | lambda _ ihbody =>
    cases hshaped with
    | function hsome hparameters hbody => exact .lambda hsome hparameters (ihbody hbody) hbody
  | apply _ _ ihcallee iharguments =>
    cases hshaped with
    | application hcallee hsome harguments =>
      exact .apply (ihcallee hcallee) hcallee hsome
        (fun argument hmem => iharguments argument hmem (harguments argument hmem)) harguments
  | letBind _ _ ihvalue ihbody =>
    cases hshaped with
    | letIn hname hvalue hbody => exact .letBind hname (ihvalue hvalue) hvalue (ihbody hbody) hbody
  | branch _ _ _ ihcondition ihthen ihelse =>
    cases hshaped with
    | ifThenElse hcondition hthen helse =>
      exact .branch (ihcondition hcondition) hcondition (ihthen hthen) hthen (ihelse helse) helse

end MlFront.Grammar
