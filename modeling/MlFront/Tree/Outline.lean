import MlFront.Tree.Basic

/-!
# The outline of a tree

A tree is printed one node to a line, each line indented by two spaces for every
step from the root and holding the node's label. `Node.preorder` lists the nodes
in the same order with their levels.
-/

namespace MlFront.Node

/-- The text that stands for a node in an outline. -/
def label : Node → String
  | literal kind value => s!"{kind.name}: {value}"
  | identifier name => s!"Var: {name}"
  | binaryOp operator _ _ _ => s!"Op: {operator}"
  | function parameters _ _ => s!"Function ({parameters.length})"
  | application _ arguments _ => s!"Apply ({arguments.length})"
  | letIn name _ _ _ => s!"Let: {name}"
  | ifThenElse .. => "If"

/-- The line of a node at a level of the tree. -/
def outlineLine (level : Nat) (node : Node) : String :=
  "".pushn ' ' (2 * level) ++ node.label ++ "\n"

mutual

/-- Adds the outline of a tree whose root is at `level` to `done`. -/
def outlineFrom (level : Nat) (done : String) : Node → String
  | node@(literal ..) | node@(identifier ..) => done ++ node.outlineLine level
  | node@(binaryOp _ left right _) =>
    outlineFrom (level + 1) (outlineFrom (level + 1) (done ++ node.outlineLine level) left) right
  | node@(function _ body _) => outlineFrom (level + 1) (done ++ node.outlineLine level) body
  | node@(application callee arguments _) =>
    outlineAllFrom (level + 1) (outlineFrom (level + 1) (done ++ node.outlineLine level) callee)
      arguments
  | node@(letIn _ value body _) =>
    outlineFrom (level + 1) (outlineFrom (level + 1) (done ++ node.outlineLine level) value) body
  | node@(ifThenElse condition thenBranch elseBranch _) =>
    outlineFrom (level + 1)
      (outlineFrom (level + 1)
        (outlineFrom (level + 1) (done ++ node.outlineLine level) condition) thenBranch)
      elseBranch

/-- Adds the outlines of some trees, all with their roots at `level`, to `done`. -/
def outlineAllFrom (level : Nat) (done : String) : List Node → String
  | [] => done
  | node :: rest => outlineAllFrom level (outlineFrom level done node) rest

end

/-- The outline of a tree. -/
def outline (node : Node) : String :=
  outlineFrom 0 "" node

/-- Adds the nodes of the pending trees, each tree with the level of its root,
to `done`, which is last first. -/
def preorderFrom (done : List (Nat × Node)) : (pending : List (Nat × Node)) → List (Nat × Node)
  | [] => done.reverse
  | (level, node) :: rest =>
    preorderFrom ((level, node) :: done) (node.children.map (level + 1, ·) ++ rest)
  termination_by pending => countAll (pending.map Prod.snd)
  decreasing_by simp [countAll, countAll_append, count_eq, Function.comp_def]

/-- The nodes of a tree with their distances from the root: a node first, then
the trees of its children in order. -/
def preorder (node : Node) : List (Nat × Node) :=
  preorderFrom [] [(0, node)]

end MlFront.Node
