/-!
# Syntax trees

A program is one expression, and `Node` is an expression. A compound node
keeps its depth, the number of nodes on the longest path down to a leaf, so that
the depth of a tree is read off its root. `Node.binary`, `Node.lambda`,
`Node.apply`, `Node.letBind` and `Node.branch` make compound nodes with the right
depth. Equality of nodes is decided by `Node.same`.
-/

namespace MlFront

/-- What a literal is. Its value stays text. -/
inductive LiteralKind where
  | number
  | boolean
  deriving DecidableEq, Repr

/-- The name of a literal kind. -/
def LiteralKind.name : LiteralKind → String
  | number => "Number"
  | boolean => "Boolean"

/-- An expression. -/
inductive Node where
  | literal (kind : LiteralKind) (value : String)
  | identifier (name : String)
  | binaryOp (operator : String) (left right : Node) (depth : Nat)
  | function (parameters : List String) (body : Node) (depth : Nat)
  | application (callee : Node) (arguments : List Node) (depth : Nat)
  | letIn (name : String) (value body : Node) (depth : Nat)
  | ifThenElse (condition thenBranch elseBranch : Node) (depth : Nat)
  deriving Repr, Inhabited

/-- The seven sorts of nodes. -/
inductive NodeType where
  | literal
  | identifier
  | binaryOp
  | function
  | application
  | letIn
  | ifThenElse
  deriving DecidableEq, Repr

/-- The name of a sort of nodes. -/
def NodeType.name : NodeType → String
  | literal => "Literal"
  | identifier => "Identifier"
  | binaryOp => "BinaryOp"
  | function => "Function"
  | application => "Application"
  | letIn => "Let"
  | ifThenElse => "If"

namespace Node

/-- The sort of a node. -/
def type : Node → NodeType
  | literal .. => .literal
  | identifier .. => .identifier
  | binaryOp .. => .binaryOp
  | function .. => .function
  | application .. => .application
  | letIn .. => .letIn
  | ifThenElse .. => .ifThenElse

/-- The number of nodes on the longest path from the node to a leaf, as kept in the node. -/
def depth : Node → Nat
  | literal .. | identifier .. => 1
  | binaryOp _ _ _ depth => depth
  | function _ _ depth => depth
  | application _ _ depth => depth
  | letIn _ _ _ depth => depth
  | ifThenElse _ _ _ depth => depth

/-- The children of a node in the order of evaluation. -/
def children : Node → List Node
  | literal .. | identifier .. => []
  | binaryOp _ left right _ => [left, right]
  | function _ body _ => [body]
  | application callee arguments _ => callee :: arguments
  | letIn _ value body _ => [value, body]
  | ifThenElse condition thenBranch elseBranch _ => [condition, thenBranch, elseBranch]

/-- The texts that a node holds beside its children. -/
def payload : Node → List String
  | literal kind value => [kind.name, value]
  | identifier name => [name]
  | binaryOp operator _ _ _ => [operator]
  | function parameters _ _ => parameters
  | application .. => []
  | letIn name _ _ _ => [name]
  | ifThenElse .. => []

/-! ## Making nodes -/

/-- An operator with its two operands. -/
def binary (operator : String) (left right : Node) : Node :=
  binaryOp operator left right (1 + max left.depth right.depth)

/-- A function of some parameters. -/
def lambda (parameters : List String) (body : Node) : Node :=
  function parameters body (1 + body.depth)

/-- A callee with the arguments it is applied to. -/
def apply (callee : Node) (arguments : List Node) : Node :=
  application callee arguments (1 + (arguments.map depth).foldl max callee.depth)

/-- A name bound to a value in a body. -/
def letBind (name : String) (value body : Node) : Node :=
  letIn name value body (1 + max value.depth body.depth)

/-- A condition with its two branches. -/
def branch (condition thenBranch elseBranch : Node) : Node :=
  ifThenElse condition thenBranch elseBranch
    (1 + max (max condition.depth thenBranch.depth) elseBranch.depth)

/-! ## Equality -/

mutual

/-- Whether two nodes are equal. -/
def same : Node → Node → Bool
  | literal k v, literal k' v' => k == k' && v == v'
  | identifier n, identifier n' => n == n'
  | binaryOp o l r d, binaryOp o' l' r' d' => d == d' && o == o' && l.same l' && r.same r'
  | function ps b d, function ps' b' d' => d == d' && ps == ps' && b.same b'
  | application f as d, application f' as' d' => d == d' && f.same f' && sameAll as as'
  | letIn n v b d, letIn n' v' b' d' => d == d' && n == n' && v.same v' && b.same b'
  | ifThenElse c t e d, ifThenElse c' t' e' d' => d == d' && c.same c' && t.same t' && e.same e'
  | _, _ => false

/-- Whether two lists of nodes are equal. -/
def sameAll : List Node → List Node → Bool
  | [], [] => true
  | a :: as, b :: bs => if a.same b then sameAll as bs else false
  | _, _ => false

end

mutual

theorem same_iff : (a b : Node) → (a.same b = true ↔ a = b)
  | literal .., b => by cases b <;> simp [same]
  | identifier .., b => by cases b <;> simp [same]
  | binaryOp _ l r _, b => by
    cases b <;> simp [same, same_iff l, same_iff r]
    grind
  | function _ body _, b => by
    cases b <;> simp [same, same_iff body]
    grind
  | application f as _, b => by
    cases b <;> simp [same, same_iff f, sameAll_iff as]
    grind
  | letIn _ v body _, b => by
    cases b <;> simp [same, same_iff v, same_iff body]
    grind
  | ifThenElse c t e _, b => by
    cases b <;> simp [same, same_iff c, same_iff t, same_iff e]
    grind

theorem sameAll_iff : (as bs : List Node) → (sameAll as bs = true ↔ as = bs)
  | [], bs => by cases bs <;> simp [sameAll]
  | a :: as, bs => by cases bs <;> simp [sameAll, same_iff a, sameAll_iff as]

end

instance : DecidableEq Node := fun a b => decidable_of_iff _ (same_iff a b)

/-! ## Walks over a tree -/

mutual

/-- The number of nodes of a tree, node by node and child by child. -/
def count : Node → Nat
  | literal .. | identifier .. => 1
  | binaryOp _ left right _ => 1 + left.count + right.count
  | function _ body _ => 1 + body.count
  | application callee arguments _ => 1 + callee.count + countAll arguments
  | letIn _ value body _ => 1 + value.count + body.count
  | ifThenElse condition thenBranch elseBranch _ =>
    1 + condition.count + thenBranch.count + elseBranch.count

/-- The number of nodes of some trees. -/
def countAll : List Node → Nat
  | [] => 0
  | node :: rest => node.count + countAll rest

end

theorem countAll_append (as bs : List Node) : countAll (as ++ bs) = countAll as + countAll bs := by
  induction as with
  | nil => simp [countAll]
  | cons a as ih => simp [countAll, ih]; omega

theorem count_eq (node : Node) : node.count = 1 + countAll node.children := by
  cases node <;> simp [count, countAll, children] <;> omega

/-- Adds the number of nodes of the pending trees to `seen`. -/
def sizeFrom (seen : Nat) : (pending : List Node) → Nat
  | [] => seen
  | node :: rest => sizeFrom (seen + 1) (node.children ++ rest)
  termination_by pending => countAll pending
  decreasing_by simp only [countAll, countAll_append, count_eq]; omega

/-- The number of nodes of a tree. -/
def size (node : Node) : Nat :=
  sizeFrom 0 [node]

end Node

end MlFront
