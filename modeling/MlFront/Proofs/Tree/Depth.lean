import MlFront.Parser.OpenForm

/-!
# Depths of nodes made from nodes

A node made by one of the constructors of `Node` is deeper than each of its
children, and `Node.Built` singles out the trees that are made by them alone.
-/

namespace MlFront

namespace Node

/-- The tree is made by the functions that make nodes with the right depth. -/
inductive Built : Node → Prop where
  | literal {kind : LiteralKind} {value : String} : Built (.literal kind value)
  | identifier {name : String} : Built (.identifier name)
  | binary {operator : String} {left right : Node} (hleft : Built left) (hright : Built right) :
      Built (.binary operator left right)
  | lambda {parameters : List String} {body : Node} (hbody : Built body) :
      Built (.lambda parameters body)
  | apply {callee : Node} {arguments : List Node} (hcallee : Built callee)
      (harguments : ∀ argument ∈ arguments, Built argument) : Built (.apply callee arguments)
  | letBind {name : String} {value body : Node} (hvalue : Built value) (hbody : Built body) :
      Built (.letBind name value body)
  | branch {condition thenBranch elseBranch : Node} (hcondition : Built condition)
      (hthen : Built thenBranch) (helse : Built elseBranch) :
      Built (.branch condition thenBranch elseBranch)

@[simp] theorem depth_binary (operator : String) (left right : Node) :
    (binary operator left right).depth = 1 + max left.depth right.depth := rfl

@[simp] theorem depth_lambda (parameters : List String) (body : Node) :
    (lambda parameters body).depth = 1 + body.depth := rfl

@[simp] theorem depth_letBind (name : String) (value body : Node) :
    (letBind name value body).depth = 1 + max value.depth body.depth := rfl

@[simp] theorem depth_branch (condition thenBranch elseBranch : Node) :
    (branch condition thenBranch elseBranch).depth =
      1 + max (max condition.depth thenBranch.depth) elseBranch.depth := rfl

theorem depth_apply (callee : Node) (arguments : List Node) :
    (apply callee arguments).depth =
      1 + ((callee :: arguments).map depth).max (List.cons_ne_nil _ _) := rfl

theorem depth_lt_apply {callee : Node} {arguments : List Node} {child : Node}
    (h : child ∈ callee :: arguments) : child.depth < (apply callee arguments).depth := by
  have hle := List.le_max_of_mem (List.mem_map_of_mem (f := depth) h)
  rw [depth_apply]
  omega

end Node

theorem OpenForm.depth_lt_close (form : OpenForm) (node : Node) :
    node.depth < (form.close node).depth := by
  cases form <;> simp [close] <;> omega

end MlFront
