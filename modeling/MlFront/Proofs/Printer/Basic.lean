import MlFront.Proofs.Grammar.Basic
import MlFront.Proofs.Tree.Depth

/-!
# Printing trees

`Node.print` writes a tree as the texts of tokens, with parentheses only where it
would be read in another way without them: `Slot.wraps` says where that is. The
printed text is full of expressions, the whole of it, the insides of parentheses,
and what stands inside of a form; `Node.expressions` lists them with their
nesting. Such an expression is read back unless an identifier comes first in it
that the parser takes for the start of a form, which is what `Node.firstName` is
for. The texts that the nodes hold have to be shaped as the lexer shapes them
(`Node.WellShaped`). With the two limits of the parser these are the conditions
of `Node.Printable`.
-/

namespace MlFront

open Grammar

/-- A place inside a node that not every expression can take without parentheses. -/
inductive Slot where
  | operand (power : Power)
  | callee
  | argument
  deriving DecidableEq, Repr

/-- The power of an operator; `primary` when the text is no operator. -/
def powerOf (operator : String) : Power :=
  (Tables.standardPower (.ofText operator)).getD .primary

namespace Slot

/-- Whether the node is put in parentheses in the slot. -/
def wraps : Slot → Node → Bool
  | operand power, .binaryOp operator .. => powerOf operator < power
  | operand _, .literal .. | operand _, .identifier _ | operand _, .application .. => false
  | operand _, .function .. | operand _, .letIn .. | operand _, .ifThenElse .. => true
  | callee, .literal .. | callee, .identifier _ => false
  | callee, _ => true
  | argument, .literal .. => false
  | argument, .identifier name => closers.contains name
  | argument, _ => true

/-- The texts of a node in the slot, from those of the node itself. -/
def write (slot : Slot) (node : Node) (texts : List String) : List String :=
  if slot.wraps node then "(" :: (texts ++ [")"]) else texts

/-- The expressions in the texts of a node in a slot, from those in the texts of
the node itself on each level. -/
def expressions (slot : Slot) (node : Node) (inside : Nat → List (Nat × Node)) (level : Nat) :
    List (Nat × Node) :=
  if slot.wraps node then (level + 1, node) :: inside (level + 1) else inside level

end Slot

namespace Node

mutual

/-- The texts of the tokens of a tree. -/
def print : Node → List String
  | literal _ value => [value]
  | identifier name => [name]
  | binaryOp operator left right _ =>
    (Slot.operand (powerOf operator)).write left left.print ++
      operator :: (Slot.operand (powerOf operator).tighter).write right right.print
  | function parameters body _ => "fn" :: (parameters ++ "->" :: body.print)
  | application callee arguments _ => Slot.callee.write callee callee.print ++ printAll arguments
  | letIn name value body _ => "let" :: name :: "=" :: (value.print ++ "in" :: body.print)
  | ifThenElse condition thenBranch elseBranch _ =>
    "if" :: (condition.print ++ "then" :: (thenBranch.print ++ "else" :: elseBranch.print))

/-- The texts of the tokens of some arguments. -/
def printAll : List Node → List String
  | [] => []
  | node :: rest => Slot.argument.write node node.print ++ printAll rest

end

mutual

/-- The expressions inside the print of a node on the given level, each with its
level: what is in parentheses, the value of a `let`, the condition and the first
branch of an `if` are one level further in. -/
def expressionsFrom : Node → Nat → List (Nat × Node)
  | literal .., _ | identifier _, _ => []
  | binaryOp operator left right _, level =>
    (Slot.operand (powerOf operator)).expressions left left.expressionsFrom level ++
      (Slot.operand (powerOf operator).tighter).expressions right right.expressionsFrom level
  | function _ body _, level => (level, body) :: body.expressionsFrom level
  | application callee arguments _, level =>
    Slot.callee.expressions callee callee.expressionsFrom level ++
      expressionsFromAll arguments level
  | letIn _ value body _, level =>
    (level + 1, value) :: value.expressionsFrom (level + 1) ++
      (level, body) :: body.expressionsFrom level
  | ifThenElse condition thenBranch elseBranch _, level =>
    (level + 1, condition) :: condition.expressionsFrom (level + 1) ++
      ((level + 1, thenBranch) :: thenBranch.expressionsFrom (level + 1) ++
        (level, elseBranch) :: elseBranch.expressionsFrom level)

/-- The expressions inside the print of some arguments of a node on the given level. -/
def expressionsFromAll : List Node → Nat → List (Nat × Node)
  | [], _ => []
  | node :: rest, level =>
    Slot.argument.expressions node node.expressionsFrom level ++ expressionsFromAll rest level

end

/-- The expressions in the print of a tree, each with the number of expressions
that are open where it starts, itself among them. -/
def expressions (node : Node) : List (Nat × Node) :=
  (1, node) :: node.expressionsFrom 1

/-- The name of the identifier that the print of a tree starts with. -/
def firstName : Node → Option String
  | identifier name => some name
  | binaryOp operator left _ _ =>
    if (Slot.operand (powerOf operator)).wraps left then none else left.firstName
  | application callee _ _ => if Slot.callee.wraps callee then none else callee.firstName
  | literal .. | function .. | letIn .. | ifThenElse .. => none

/-- The texts in the tree are such as the lexer makes, and no list is empty. -/
inductive WellShaped : Node → Prop where
  | number {value : String} (h : isNumberShaped value.toList = true) :
      WellShaped (.literal .number value)
  | boolean {value : String} (h : value ∈ ["true", "false"]) : WellShaped (.literal .boolean value)
  | identifier {name : String} (hname : isNameShaped name.toList = true)
      (hword : name ∉ ["true", "false"]) : WellShaped (.identifier name)
  | binaryOp {operator : String} {left right : Node} {depth : Nat}
      (hoperator : operator ∈ ["==", "!=", "<", ">", "<=", ">=", "+", "-", "*", "/"])
      (hleft : WellShaped left) (hright : WellShaped right) :
      WellShaped (.binaryOp operator left right depth)
  | function {parameters : List String} {body : Node} {depth : Nat} (hsome : parameters ≠ [])
      (hparameters : ∀ parameter ∈ parameters, isNameShaped parameter.toList = true)
      (hbody : WellShaped body) : WellShaped (.function parameters body depth)
  | application {callee : Node} {arguments : List Node} {depth : Nat} (hcallee : WellShaped callee)
      (hsome : arguments ≠ []) (harguments : ∀ argument ∈ arguments, WellShaped argument) :
      WellShaped (.application callee arguments depth)
  | letIn {name : String} {value body : Node} {depth : Nat}
      (hname : isNameShaped name.toList = true) (hvalue : WellShaped value)
      (hbody : WellShaped body) : WellShaped (.letIn name value body depth)
  | ifThenElse {condition thenBranch elseBranch : Node} {depth : Nat}
      (hcondition : WellShaped condition) (hthen : WellShaped thenBranch)
      (helse : WellShaped elseBranch) :
      WellShaped (.ifThenElse condition thenBranch elseBranch depth)

/-- The tree can be read back from its print. -/
structure Printable (node : Node) : Prop where
  built : node.Built
  wellShaped : node.WellShaped
  /-- No expression in the print starts with a name that starts a form. -/
  noOpener : ∀ expression ∈ node.expressions, ∀ name ∈ expression.2.firstName, name ∉ openers
  nesting : ∀ expression ∈ node.expressions, expression.1 ≤ maxNesting
  depth : node.depth ≤ maxDepth

/-! ## What the walks say of the print -/

theorem head?_print {node : Node} {name : String} (h : name ∈ node.firstName)
    (rest : List String) : (node.print ++ rest).head? = some name := by
  fun_induction firstName node generalizing rest with
  | case1 => simpa [print] using h
  | case2 => cases h
  | case3 operator left right depth hwraps ih =>
    rw [print, Slot.write, if_neg hwraps, List.append_assoc]
    exact ih h _
  | case4 => cases h
  | case5 callee arguments depth hwraps ih =>
    rw [print, Slot.write, if_neg hwraps, List.append_assoc]
    exact ih h _
  | case6 | case7 | case8 | case9 => cases h

theorem infix_print_cons {node : Node} {level : Nat} {expression : Nat × Node}
    (h : expression ∈ node.expressionsFrom level → expression.2.print <:+: node.print)
    (hmem : expression ∈ (level, node) :: node.expressionsFrom level) :
    expression.2.print <:+: node.print := by
  rcases List.mem_cons.mp hmem with rfl | hmem
  · exact List.infix_rfl
  · exact h hmem

theorem infix_print_slot {slot : Slot} {node : Node} {level : Nat} {expression : Nat × Node}
    (h : ∀ level, expression ∈ node.expressionsFrom level → expression.2.print <:+: node.print)
    (hmem : expression ∈ slot.expressions node node.expressionsFrom level) :
    expression.2.print <:+: slot.write node node.print := by
  unfold Slot.expressions at hmem
  unfold Slot.write
  split at hmem
  · next hwraps =>
    rw [if_pos hwraps]
    exact (infix_print_cons (h _) hmem).trans ⟨["("], [")"], rfl⟩
  · next hwraps =>
    rw [if_neg hwraps]
    exact h _ hmem

mutual

theorem infix_print (expression : Nat × Node) : (node : Node) → (level : Nat) →
    expression ∈ node.expressionsFrom level → expression.2.print <:+: node.print
  | literal .., _, h | identifier _, _, h => by simp [expressionsFrom] at h
  | binaryOp operator left right _, level, h => by
    rw [expressionsFrom, List.mem_append] at h
    rw [print]
    rcases h with h | h
    · exact (infix_print_slot (infix_print expression left) h).trans ⟨[], _, rfl⟩
    · exact (infix_print_slot (infix_print expression right) h).trans
        ⟨(Slot.operand (powerOf operator)).write left left.print ++ [operator], [], by simp⟩
  | function parameters body _, level, h => by
    rw [expressionsFrom] at h
    rw [print]
    exact (infix_print_cons (infix_print expression body _) h).trans
      ⟨"fn" :: (parameters ++ ["->"]), [], by simp⟩
  | application callee arguments _, level, h => by
    rw [expressionsFrom, List.mem_append] at h
    rw [print]
    rcases h with h | h
    · exact (infix_print_slot (infix_print expression callee) h).trans ⟨[], _, rfl⟩
    · exact (infix_printAll expression arguments _ h).trans ⟨_, [], List.append_nil _⟩
  | letIn name value body _, level, h => by
    rw [expressionsFrom, List.mem_append] at h
    rw [print]
    rcases h with h | h
    · exact (infix_print_cons (infix_print expression value _) h).trans
        ⟨["let", name, "="], "in" :: body.print, by simp⟩
    · exact (infix_print_cons (infix_print expression body _) h).trans
        ⟨"let" :: name :: "=" :: (value.print ++ ["in"]), [], by simp⟩
  | ifThenElse condition thenBranch elseBranch _, level, h => by
    rw [expressionsFrom, List.mem_append, List.mem_append] at h
    rw [print]
    rcases h with h | h | h
    · exact (infix_print_cons (infix_print expression condition _) h).trans
        ⟨["if"], "then" :: (thenBranch.print ++ "else" :: elseBranch.print), by simp⟩
    · exact (infix_print_cons (infix_print expression thenBranch _) h).trans
        ⟨"if" :: (condition.print ++ ["then"]), "else" :: elseBranch.print, by simp⟩
    · exact (infix_print_cons (infix_print expression elseBranch _) h).trans
        ⟨"if" :: (condition.print ++ "then" :: (thenBranch.print ++ ["else"])), [], by simp⟩

theorem infix_printAll (expression : Nat × Node) : (nodes : List Node) → (level : Nat) →
    expression ∈ expressionsFromAll nodes level → expression.2.print <:+: printAll nodes
  | [], _, h => by simp [expressionsFromAll] at h
  | node :: rest, level, h => by
    rw [expressionsFromAll, List.mem_append] at h
    rw [printAll]
    rcases h with h | h
    · exact (infix_print_slot (infix_print expression node) h).trans ⟨[], _, rfl⟩
    · exact (infix_printAll expression rest _ h).trans ⟨_, [], List.append_nil _⟩

end

/-- The expressions in a print do stand in it. -/
theorem infix_print_of_mem {node : Node} {expression : Nat × Node}
    (h : expression ∈ node.expressions) : expression.2.print <:+: node.print :=
  infix_print_cons (infix_print expression node 1) h

end Node

end MlFront
