import Mathlib.Order.Bounds.Defs
import MlFront.Proofs.Tree.Depth

/-!
# Ways down a tree

`node.Descends steps bottom`: from the node, so many steps from a node to one of its
children lead down to `bottom`. `Node.height` measures a tree through its children
alone. It is the number of nodes on the longest way down to a leaf
(`isGreatest_height`), and a tree that is `Built` keeps just this number as its depth
(`Built.depth_eq_height`).
-/

namespace MlFront.Node

/-! ## Children -/

theorem count_lt_of_mem_children {node child : Node} (h : child ∈ node.children) :
    child.count < node.count := by
  obtain ⟨front, back, hsplit⟩ := List.append_of_mem h
  rw [count_eq node, hsplit, countAll_append, countAll]
  omega

/-- What holds of a node whenever it holds of its children holds of every node. -/
theorem children_induction {P : Node → Prop}
    (step : ∀ node, (∀ child ∈ node.children, P child) → P node) (node : Node) : P node := by
  induction hn : node.count using Nat.strongRecOn generalizing node with
  | _ n ih => exact step node fun child hmem => ih _ (hn ▸ count_lt_of_mem_children hmem) child rfl

@[simp] theorem children_binary (operator : String) (left right : Node) :
    (binary operator left right).children = [left, right] := rfl

@[simp] theorem children_lambda (parameters : List String) (body : Node) :
    (lambda parameters body).children = [body] := rfl

@[simp] theorem children_apply (callee : Node) (arguments : List Node) :
    (apply callee arguments).children = callee :: arguments := rfl

@[simp] theorem children_letBind (name : String) (value body : Node) :
    (letBind name value body).children = [value, body] := rfl

@[simp] theorem children_branch (condition thenBranch elseBranch : Node) :
    (branch condition thenBranch elseBranch).children = [condition, thenBranch, elseBranch] := rfl

theorem Built.children {node : Node} (h : node.Built) : ∀ child ∈ node.children, child.Built := by
  cases h with
  | literal | identifier => exact List.forall_mem_nil _
  | binary hleft hright => simpa using ⟨hleft, hright⟩
  | lambda hbody => simpa using hbody
  | apply hcallee harguments => simpa using ⟨hcallee, harguments⟩
  | letBind hvalue hbody => simpa using ⟨hvalue, hbody⟩
  | branch hcondition hthen helse => simpa using ⟨hcondition, hthen, helse⟩

/-! ## Heights -/

/-- The height of a tree: one more than the greatest height of a child. -/
def height (node : Node) : Nat :=
  1 + (node.children.attach.map fun ⟨child, _⟩ => child.height).max?.getD 0
  termination_by node.count
  decreasing_by exact count_lt_of_mem_children ‹_›

theorem height_eq (node : Node) :
    node.height = 1 + (node.children.map height).max?.getD 0 := by
  rw [height, List.attach_map_val]

theorem height_lt_of_mem_children {node child : Node} (h : child ∈ node.children) :
    child.height < node.height := by
  have hle := List.le_max?_getD_of_mem (k := 0) (List.mem_map_of_mem (f := height) h)
  rw [height_eq node]
  omega

/-- A node with children is one higher than one of them. -/
theorem exists_child_of_height {node : Node} (h : node.children ≠ []) :
    ∃ child ∈ node.children, node.height = child.height + 1 := by
  cases hmax : (node.children.map height).max? with
  | none => simp [h] at hmax
  | some top =>
    obtain ⟨child, hmem, rfl⟩ := List.mem_map.mp (List.max?_mem hmax)
    refine ⟨child, hmem, ?_⟩
    rw [height_eq, hmax, Option.getD_some, Nat.add_comm]

/-- So many steps from a node to a child lead from the first node down to the second. -/
inductive Descends : Nat → Node → Node → Prop where
  | refl (node : Node) : Descends 0 node node
  | child {steps : Nat} {node child bottom : Node} (hmem : child ∈ node.children)
      (h : Descends steps child bottom) : Descends (steps + 1) node bottom

/-- What is handed on to the children is handed on all the way down. -/
theorem Descends.inherits {P : Node → Prop} {steps : Nat} {node bottom : Node}
    (hdown : Descends steps node bottom)
    (hchildren : ∀ node, P node → ∀ child ∈ node.children, P child) (h : P node) : P bottom := by
  induction hdown with
  | refl => exact h
  | child hmem _ ih => exact ih (hchildren _ h _ hmem)

theorem Descends.height_le {steps : Nat} {node bottom : Node} (h : Descends steps node bottom) :
    steps + bottom.height ≤ node.height := by
  induction h with
  | refl node => omega
  | child hmem _ ih =>
    have := height_lt_of_mem_children hmem
    omega

theorem exists_leaf (node : Node) :
    ∃ steps leaf, node.height = steps + 1 ∧ Descends steps node leaf ∧ leaf.children = [] := by
  induction node using children_induction with
  | step node ih =>
    by_cases hleaf : node.children = []
    · exact ⟨0, node, by rw [height_eq, hleaf]; rfl, .refl node, hleaf⟩
    · obtain ⟨child, hmem, hheight⟩ := exists_child_of_height hleaf
      obtain ⟨steps, leaf, hchild, hdown, hend⟩ := ih child hmem
      exact ⟨steps + 1, leaf, by rw [hheight, hchild], .child hmem hdown, hend⟩

/-- The height is the number of nodes on the longest way down to a leaf. -/
theorem isGreatest_height (node : Node) :
    IsGreatest {length | ∃ steps leaf, length = steps + 1 ∧ Descends steps node leaf ∧
      leaf.children = []} node.height := by
  refine ⟨exists_leaf node, ?_⟩
  rintro _ ⟨steps, leaf, rfl, hdown, hend⟩
  have hheight : leaf.height = 1 := by rw [height_eq, hend]; rfl
  have := hdown.height_le
  omega

/-! ## Depths -/

theorem Built.descends {steps : Nat} {node bottom : Node} (h : node.Built)
    (hdown : Descends steps node bottom) : bottom.Built :=
  hdown.inherits (fun _ => Built.children) h

/-- A node that is built keeps one more than the greatest depth of a child. -/
theorem Built.depth_eq {node : Node} (h : node.Built) :
    node.depth = 1 + (node.children.map depth).max?.getD 0 := by
  cases h with
  | literal | identifier => rfl
  | binary | lambda | letBind => simp
  | apply =>
    rw [children_apply, List.map_cons, List.max?_cons', Option.getD_some]
    rfl
  | branch => simp [Nat.max_assoc]

theorem Built.depth_eq_height {node : Node} (h : node.Built) : node.depth = node.height := by
  induction node using children_induction with
  | step node ih =>
    have hchildren : node.children.map depth = node.children.map height :=
      List.map_congr_left fun child hmem => ih child hmem (h.children child hmem)
    rw [h.depth_eq, hchildren, height_eq]

end MlFront.Node
