import Mathlib.Algebra.Order.Ring.Nat
import Mathlib.Data.List.Basic
import MlFront.Proofs.Tree.Rose
import MlFront.Tree.Outline

/-!
# Walks over a tree

`node.walk level` lists a tree by going through its children: the node itself, then the
walks of its children one level further down. The level of an entry is the number of
steps that lead to it (`mem_walk_iff`). The two functions that keep a list of pending
trees instead find the same: `Node.size` the number of entries, `Node.preorder` the
entries in the same order.
-/

namespace MlFront.Node

/-- The nodes of a tree with its root at `level`, each with its level: a node first,
then the walks of its children. -/
def walk (level : Nat) (node : Node) : List (Nat × Node) :=
  (level, node) :: node.children.attach.flatMap fun ⟨child, _⟩ => child.walk (level + 1)
  termination_by node.count
  decreasing_by exact count_lt_of_mem_children ‹_›

theorem walk_eq (level : Nat) (node : Node) :
    node.walk level = (level, node) :: node.children.flatMap (walk (level + 1)) := by
  rw [walk]
  simp

/-- The entries of a walk are the nodes that steps lead to, each at the level of its steps. -/
theorem mem_walk_iff {level below : Nat} {node bottom : Node} :
    (below, bottom) ∈ node.walk level ↔
      ∃ steps, below = level + steps ∧ Descends steps node bottom := by
  constructor
  · intro h
    induction node using children_induction generalizing level with
    | step node ih =>
      rw [walk_eq, List.mem_cons, List.mem_flatMap] at h
      rcases h with h | ⟨child, hmem, h⟩
      · cases h
        exact ⟨0, rfl, .refl bottom⟩
      · obtain ⟨steps, rfl, hdown⟩ := ih child hmem h
        exact ⟨steps + 1, by omega, .child hmem hdown⟩
  · rintro ⟨steps, rfl, hdown⟩
    induction hdown generalizing level with
    | refl node =>
      rw [walk_eq]
      exact List.mem_cons_self
    | @child steps node child bottom hmem _ ih =>
      rw [walk_eq, List.mem_cons, List.mem_flatMap]
      refine .inr ⟨child, hmem, ?_⟩
      rw [Nat.add_comm steps, ← Nat.add_assoc]
      exact ih

/-- The values of a walk are the walk of the tree of values. -/
theorem map_walk {α : Type} (f : Node → α) (level : Nat) (node : Node) :
    (node.walk level).map (fun entry => (entry.1, f entry.2)) = (node.rose f).walk level := by
  induction node using children_induction generalizing level with
  | step node ih =>
    rw [walk_eq, rose_eq, Rose.walk, Rose.walkAll_eq_flatMap, List.map_cons, List.map_flatMap,
      List.flatMap_map]
    congr 1
    exact List.flatMap_congr fun child hmem => ih child hmem (level + 1)

/-! ## Counting -/

theorem countAll_eq_sum (nodes : List Node) : countAll nodes = (nodes.map count).sum := by
  induction nodes with
  | nil => rfl
  | cons node rest ih => rw [countAll, ih, List.map_cons, List.sum_cons]

theorem length_walk (level : Nat) (node : Node) : (node.walk level).length = node.count := by
  induction node using children_induction generalizing level with
  | step node ih =>
    have hlengths : node.children.map (fun child => (child.walk (level + 1)).length) =
        node.children.map count := List.map_congr_left fun child hmem => ih child hmem _
    rw [walk_eq, List.length_cons, List.length_flatMap, hlengths, count_eq, countAll_eq_sum,
      Nat.add_comm]

theorem sizeFrom_eq (seen : Nat) (pending : List Node) :
    sizeFrom seen pending = seen + countAll pending := by
  fun_induction sizeFrom seen pending with
  | case1 => rfl
  | case2 seen node rest ih =>
    rw [ih, countAll_append, countAll, count_eq]
    omega

theorem size_eq_count (node : Node) : node.size = node.count := by
  rw [size, sizeFrom_eq, countAll, countAll]
  omega

/-- The size is one more than the sizes of the children together. -/
theorem size_eq_sum (node : Node) : node.size = 1 + (node.children.map size).sum := by
  have hsizes : node.children.map size = node.children.map count :=
    List.map_congr_left fun child _ => child.size_eq_count
  rw [size_eq_count, count_eq, countAll_eq_sum, hsizes]

/-! ## Preorder -/

theorem preorderFrom_eq (done pending : List (Nat × Node)) :
    preorderFrom done pending =
      done.reverse ++ pending.flatMap fun entry => entry.2.walk entry.1 := by
  fun_induction preorderFrom done pending with
  | case1 done => simp
  | case2 done level node rest ih =>
    rw [ih, List.flatMap_append, List.flatMap_map, List.flatMap_cons, walk_eq level node]
    simp

theorem preorder_eq_walk (node : Node) : node.preorder = node.walk 0 := by
  rw [preorder, preorderFrom_eq]
  simp

end MlFront.Node
