import MlFront.Proofs.Parser.Reads
import MlFront.Proofs.Tree.Rose

/-!
# What the rules build

With any tables and from any state, a rule that succeeds has made its node with the
functions that keep the right depths (`Node.Built`), and so has a form every node that
it holds. `Node.Made` takes in whatever can be had from there: forms closed around such
nodes and the nodes inside of them. For all of these the depth that is kept is the
height, and equality of nodes is equality of their trees without the depths.
-/

namespace MlFront

open ParseM

/-- The nodes that a form holds. -/
def OpenForm.nodes : OpenForm → List Node
  | letIn _ value => [value]
  | ifThenElse condition thenBranch => [condition, thenBranch]
  | function _ => []

theorem OpenForm.built_close {form : OpenForm} {node : Node}
    (hform : ∀ part ∈ form.nodes, part.Built) (hnode : node.Built) : (form.close node).Built := by
  cases form with
  | letIn name value =>
    exact .letBind (hform value (by simp [nodes])) hnode
  | ifThenElse condition thenBranch =>
    exact .branch (hform condition (by simp [nodes])) (hform thenBranch (by simp [nodes])) hnode
  | function parameters => exact .lambda hnode

namespace Rule

/-- The rule makes nodes that are built. -/
def Builds (rule : Rule Node) : Prop :=
  ∀ state, (rule.step.run state).Reads state fun _ node _ => node.Built

variable {inner : Rule Node} {tables : Tables}

theorem builds_grouping (h : inner.Builds) : (grouping inner).Builds := by
  intro state
  refine Reads.bind reads_expect fun _ _ _ _ _ => ?_
  refine Reads.bind (h _) fun _ node _ hnode _ => ?_
  exact Reads.bind reads_expectOr fun _ _ _ _ _ => Outcome.reads_ok hnode

theorem builds_primary (h : inner.Builds) : (primary inner).Builds := by
  intro state
  simp only [primary]
  split
  · exact Outcome.reads_error _ _ _ _
  · next hrest =>
    split
    · exact Outcome.reads_next hrest .literal
    · exact Outcome.reads_next hrest .literal
    · exact Outcome.reads_next hrest .literal
    · exact builds_grouping h state
    · split
      · exact Outcome.reads_next hrest .identifier
      · exact Outcome.reads_error _ _ _ _

theorem builds_argumentSteps {argument : Rule Node} (h : argument.Builds) {done : List Node}
    (hdone : ∀ node ∈ done, node.Built) (state : State) :
    ((argumentSteps argument done).run state).Reads state fun _ nodes _ =>
      ∀ node ∈ nodes, node.Built := by
  induction hn : state.rest.length using Nat.strongRecOn generalizing done state with
  | _ n ih =>
    have hread : ∀ node ∈ done.reverse, node.Built := by simpa using hdone
    rw [argumentSteps_eq, run_bind]
    simp only [current?, Outcome.andThen_ok]
    split
    · exact Outcome.reads_ok hread
    · split
      · exact Outcome.reads_ok hread
      · refine Reads.bind (h state) fun _ node _ hnode hrun => ?_
        have hlt := argument.shortens state node _ hrun
        exact ih _ (hn ▸ hlt) (List.forall_mem_cons.mpr ⟨hnode, hdone⟩) _ rfl

theorem builds_application (h : inner.Builds) : (application inner).Builds := by
  intro state
  have hprimary := builds_primary h
  rw [application_step]
  refine Reads.bind (hprimary state) fun _ callee _ hcallee _ => ?_
  refine Reads.bind (builds_argumentSteps hprimary (List.forall_mem_nil _) _)
    fun _ list _ hlist _ => ?_
  cases list with
  | nil => exact Outcome.reads_ok hcallee
  | cons argument more =>
    refine reads_build.mono ?_
    rintro _ _ _ ⟨-, rfl, -, -⟩
    exact .apply hcallee hlist

theorem builds_foldSteps {operand : Rule Node} {bound : Nat}
    (hright : ∀ power state, state.rest.length < bound →
      ((binary tables operand power).step.run state).Reads state fun _ node _ => node.Built)
    (minimum : Power) {left : Node} (hleft : left.Built) {state : State}
    (hbound : state.rest.length ≤ bound) :
    ((foldSteps tables operand minimum left).run state).Reads state fun _ node _ =>
      node.Built := by
  induction hn : state.rest.length using Nat.strongRecOn generalizing left state with
  | _ n ih =>
    rw [foldSteps_eq, run_bind]
    simp only [operator?, Outcome.andThen_ok]
    split
    · exact Outcome.reads_ok hleft
    · next operator power hop =>
      split
      · exact Outcome.reads_ok hleft
      · obtain ⟨token, more, hrest, -, -⟩ := State.operator?_eq_some hop
        refine Reads.bind (reads_advance hrest) ?_
        rintro _ - - rfl -
        refine Reads.bind reads_more ?_
        rintro _ - - rfl -
        simp only [State.skip_skip, List.length_singleton, List.length_nil, Nat.add_zero]
        have hlt : (state.skip 1).rest.length < state.rest.length := by simp [hrest]
        refine Reads.bind (hright power.tighter _ (by omega)) fun _ right _ hbuilt hrun => ?_
        have hshort := (binary tables operand power.tighter).shortens _ right _ hrun
        refine Reads.bind reads_build ?_
        rintro _ _ - ⟨rfl, rfl, -, -⟩ -
        rw [List.length_nil, State.skip_zero]
        exact ih _ (by omega) (.binary hleft hbuilt) (by omega) rfl

theorem builds_binary {operand : Rule Node} (h : operand.Builds) (minimum : Power) :
    (binary tables operand minimum).Builds := by
  intro state
  induction hn : state.rest.length using Nat.strongRecOn generalizing minimum state with
  | _ n ih =>
    rw [binary_step]
    refine Reads.bind (h state) fun _ left _ hleft hrun => ?_
    have hlt := operand.shortens state left _ hrun
    refine builds_foldSteps (fun power state hlt' => ?_) minimum hleft (Nat.le_refl _)
    exact ih _ (by omega) power state rfl

/-- A form that is parsed holds nodes that are built. -/
theorem builds_form (h : inner.Builds) (form : Form) (state : State) :
    ((form.rule inner).step.run state).Reads state fun _ opened _ =>
      ∀ part ∈ opened.nodes, part.Built := by
  cases form with
  | letIn =>
    refine Reads.bind reads_currentLine fun _ _ _ _ _ => ?_
    refine Reads.bind reads_expect fun _ _ _ _ _ => ?_
    refine Reads.bind reads_nameOr fun _ _ _ _ _ => ?_
    refine Reads.bind reads_expectOr fun _ _ _ _ _ => ?_
    refine Reads.bind (h _) fun _ value _ hvalue _ => ?_
    refine Reads.bind reads_expectOr fun _ _ _ _ _ => ?_
    exact Outcome.reads_ok (List.forall_mem_singleton.mpr hvalue)
  | ifThenElse =>
    refine Reads.bind reads_currentLine fun _ _ _ _ _ => ?_
    refine Reads.bind reads_expect fun _ _ _ _ _ => ?_
    refine Reads.bind (h _) fun _ condition _ hcondition _ => ?_
    refine Reads.bind reads_expectOr fun _ _ _ _ _ => ?_
    refine Reads.bind (h _) fun _ thenBranch _ hthen _ => ?_
    refine Reads.bind reads_expectOr fun _ _ _ _ _ => ?_
    exact Outcome.reads_ok
      (List.forall_mem_cons.mpr ⟨hcondition, List.forall_mem_singleton.mpr hthen⟩)
  | function =>
    refine Reads.bind reads_currentLine fun _ _ _ _ _ => ?_
    refine Reads.bind reads_expect fun _ _ _ _ _ => ?_
    refine Reads.bind reads_parameters fun _ _ _ _ _ => ?_
    refine Reads.bind reads_arrow fun _ _ _ _ _ => ?_
    exact Outcome.reads_ok (List.forall_mem_nil _)

theorem builds_closeAll {forms : List OpenForm}
    (hforms : ∀ form ∈ forms, ∀ part ∈ form.nodes, part.Built) {node : Node} (hnode : node.Built)
    (state : State) :
    ((closeAll forms node).run state).Reads state fun _ node _ => node.Built := by
  induction forms generalizing node state with
  | nil => exact Outcome.reads_ok hnode
  | cons form more ih =>
    obtain ⟨hform, hmore⟩ := List.forall_mem_cons.mp hforms
    refine Reads.bind reads_build ?_
    rintro _ _ - ⟨-, rfl, -, -⟩ -
    exact ih hmore (OpenForm.built_close hform hnode) _

theorem builds_chainSteps {last : Rule Node} (h : inner.Builds) (hlast : last.Builds)
    {waiting : List OpenForm} (hwaiting : ∀ form ∈ waiting, ∀ part ∈ form.nodes, part.Built)
    (state : State) :
    ((chainSteps tables inner last waiting).run state).Reads state fun _ node _ => node.Built := by
  induction hn : state.rest.length using Nat.strongRecOn generalizing waiting state with
  | _ n ih =>
    rw [chainSteps_eq, run_bind]
    simp only [current?, Outcome.andThen_ok]
    split
    · exact Outcome.reads_error _ _ _ _
    · split
      · refine Reads.bind (hlast state) fun _ node _ hnode _ => ?_
        exact builds_closeAll hwaiting hnode _
      · next form _ =>
        refine Reads.bind (builds_form h form state) fun _ opened _ hopened hrun => ?_
        have hlt := (form.rule inner).shortens state opened _ hrun
        exact ih _ (hn ▸ hlt) (List.forall_mem_cons.mpr ⟨hopened, hwaiting⟩) _ rfl

theorem builds_expression (tables : Tables) (levels : Nat) :
    (expression tables levels).Builds := by
  induction levels with
  | zero => exact fun state => reads_nested (Outcome.reads_error _ _ _ _)
  | succ levels ih =>
    intro state
    rw [expression_succ]
    exact reads_nested
      (builds_chainSteps ih (builds_binary (builds_application ih) _) (List.forall_mem_nil _) _)

end Rule

theorem Entry.builds_rule (tables : Tables) (levels : Nat) (entry : Entry) :
    (entry.rule tables levels).Builds := by
  have hinner := Rule.builds_expression tables levels
  have hoperand := Rule.builds_application hinner
  cases entry with
  | expression => exact hinner
  | binary minimum => exact Rule.builds_binary hoperand minimum
  | application => exact hoperand
  | primary => exact Rule.builds_primary hinner
  | grouping => exact Rule.builds_grouping hinner

/-! ## Nodes that can be had -/

namespace Node

/-- The nodes that can be had from the rules, whatever the tables and the states are. -/
inductive Made : Node → Prop where
  | rule {tables : Tables} {entry : Entry} {state after : State} {node : Node}
      (h : (entry.step tables).run state = .ok node after) : Made node
  | part {tables : Tables} {form : Form} {state after : State} {opened : OpenForm} {node : Node}
      (h : (form.step tables).run state = .ok opened after) (hpart : node ∈ opened.nodes) :
      Made node
  | close {form : OpenForm} {node : Node} (hform : ∀ part ∈ form.nodes, Made part)
      (hnode : Made node) : Made (form.close node)
  | child {node child : Node} (h : Made node) (hchild : child ∈ node.children) : Made child

theorem Made.built {node : Node} (h : node.Made) : node.Built := by
  induction h with
  | @rule tables entry state after node h =>
    obtain ⟨-, -, -, hbuilt⟩ := Entry.builds_rule tables state.levelsLeft entry state node after h
    exact hbuilt
  | @part tables form state after opened node h hpart =>
    have hinner := Rule.builds_expression tables state.levelsLeft
    obtain ⟨-, -, -, hbuilt⟩ := Rule.builds_form hinner form state opened after h
    exact hbuilt node hpart
  | close _ _ ihform ihnode => exact OpenForm.built_close ihform ihnode
  | child _ hchild ih => exact ih.children _ hchild

/-- At a node that is made and anywhere below it, the depth that is kept is the height,
which is the number of nodes on the longest way down to a leaf; and two nodes that are
made are equal, their kept depths included, just when they are equal without these. -/
theorem depths_and_equality :
    (∀ node : Node, node.Made → ∀ steps below, Descends steps node below →
      below.depth = below.height ∧
      IsGreatest {length | ∃ steps leaf, length = steps + 1 ∧ Descends steps below leaf ∧
        leaf.children = []} below.depth) ∧
    (∀ a b : Node, a.Made → b.Made → (a.same b = true ↔ a.erased = b.erased)) := by
  constructor
  · intro node hnode steps below hdown
    have hdepth := (hnode.built.descends hdown).depth_eq_height
    exact ⟨hdepth, hdepth ▸ isGreatest_height below⟩
  · intro a b ha hb
    rw [same_iff]
    exact ⟨congrArg erased, ha.built.eq_of_erased hb.built⟩

/-- A `let` that is parsed and the application that is its value. -/
theorem depths_and_equality_let :
    let value := apply (.identifier "f") [.literal .number "1"]
    let node := letBind "x" value (.identifier "x")
    node.Made ∧ value.Made ∧ Descends 1 node value ∧ value.depth = value.height ∧
      (node.same value = true ↔ node.erased = value.erased) := by
  intro value node
  have hrun : (Entry.expression.step .standard).run (.start (tokenize "let x = f 1 in x")) =
      .ok node ⟨(tokenize "let x = f 1 in x").reverse, [], 0⟩ := by decide +kernel
  have hnode : node.Made := .rule hrun
  have hchild : value ∈ node.children := List.mem_cons_self
  have hvalue : value.Made := .child hnode hchild
  have hdown : Descends 1 node value := .child hchild (.refl value)
  exact ⟨hnode, hvalue, hdown, (depths_and_equality.1 node hnode 1 value hdown).1,
    depths_and_equality.2 node value hnode hvalue⟩

end Node

end MlFront
