import MlFront.Proofs.Tree.Height

/-!
# Trees of values

`Rose` is a tree in which every node holds a value, and `Node.rose f` is a syntax tree
with `f` of each node in the node's place. `Rose.walk` lists the values of a tree, a
node before its children, each with its level. The list determines the tree
(`Rose.walk_inj`): the trees below a node go on as long as the levels are greater
than its own.

`Node.erased` is a syntax tree without the depths that its nodes keep. Nodes that are
`Built` are equal just when they are equal without their depths.
-/

namespace MlFront

/-- A function that tells the members of two lists apart tells the lists apart. -/
theorem eq_of_map_eq_map {α β : Type} {f : α → β} {as bs : List α}
    (h : ∀ a ∈ as, ∀ b ∈ bs, f a = f b → a = b) (heq : as.map f = bs.map f) : as = bs := by
  induction as generalizing bs with
  | nil => exact (List.map_eq_nil_iff.mp heq.symm).symm
  | cons a as ih =>
    obtain ⟨b, rest, rfl, hhead, hrest⟩ := List.map_eq_cons_iff.mp heq.symm
    have hab : a = b := h a List.mem_cons_self b List.mem_cons_self hhead.symm
    rw [hab, ih (fun a ha b hb => h a (List.mem_cons_of_mem _ ha) b (List.mem_cons_of_mem _ hb))
      hrest.symm]

/-- A tree of values. -/
inductive Rose (α : Type) where
  | node (value : α) (children : List (Rose α))

namespace Rose

variable {α : Type}

mutual

/-- The values of a tree with its root at `level`, a node before its children, each
value with its level. -/
def walk (level : Nat) : Rose α → List (Nat × α)
  | node value children => (level, value) :: walkAll (level + 1) children

/-- The values of some trees with their roots at `level`, each value with its level. -/
def walkAll (level : Nat) : List (Rose α) → List (Nat × α)
  | [] => []
  | tree :: rest => walk level tree ++ walkAll level rest

end

theorem walkAll_eq_flatMap (level : Nat) (trees : List (Rose α)) :
    walkAll level trees = trees.flatMap (walk level) := by
  induction trees with
  | nil => rfl
  | cons tree rest ih => rw [walkAll, ih, List.flatMap_cons]

/-- The entries start on a level above the given one, if there are any. -/
def StartsAbove (level : Nat) (entries : List (Nat × α)) : Prop :=
  ∀ entry ∈ entries.head?, entry.1 < level

theorem startsAbove_walkAll {level : Nat} {entries : List (Nat × α)}
    (h : StartsAbove level entries) (trees : List (Rose α)) :
    StartsAbove (level + 1) (walkAll level trees ++ entries) := by
  cases trees with
  | nil => exact fun entry hmem => Nat.lt_succ_of_lt (h entry hmem)
  | cons tree trees =>
    cases tree
    rintro entry hmem
    cases hmem
    exact Nat.lt_succ_self level

theorem not_startsAbove_walkAll {level : Nat} (tree : Rose α) (trees : List (Rose α))
    (entries : List (Nat × α)) : ¬ StartsAbove level (walkAll level (tree :: trees) ++ entries) := by
  cases tree with
  | node value children => exact fun h => Nat.lt_irrefl level (h (level, value) rfl)

/-- Trees are read back from their walk: what is below a node ends where an entry is on
the node's level or above it. -/
theorem walkAll_append_inj (trees trees' : List (Rose α)) {level : Nat}
    {entries entries' : List (Nat × α)} (h : StartsAbove level entries)
    (h' : StartsAbove level entries')
    (heq : walkAll level trees ++ entries = walkAll level trees' ++ entries') :
    trees = trees' ∧ entries = entries' := by
  match trees, trees' with
  | [], [] => exact ⟨rfl, heq⟩
  | [], tree' :: rest' =>
    have hentries : entries = walkAll level (tree' :: rest') ++ entries' := heq
    rw [hentries] at h
    exact absurd h (not_startsAbove_walkAll tree' rest' entries')
  | tree :: rest, [] =>
    have hentries : walkAll level (tree :: rest) ++ entries = entries' := heq
    rw [← hentries] at h'
    exact absurd h' (not_startsAbove_walkAll tree rest entries)
  | node value children :: rest, node value' children' :: rest' =>
    simp only [walkAll, walk, List.cons_append, List.append_assoc, List.cons.injEq, Prod.mk.injEq,
      true_and] at heq
    obtain ⟨rfl, hbelow⟩ := heq
    obtain ⟨rfl, hbehind⟩ := walkAll_append_inj children children' (startsAbove_walkAll h rest)
      (startsAbove_walkAll h' rest') hbelow
    obtain ⟨rfl, rfl⟩ := walkAll_append_inj rest rest' h h' hbehind
    exact ⟨rfl, rfl⟩

theorem walk_inj {level : Nat} {tree tree' : Rose α} :
    walk level tree = walk level tree' ↔ tree = tree' := by
  refine ⟨fun heq => ?_, congrArg _⟩
  have hall : walkAll level [tree] ++ [] = walkAll level [tree'] ++ [] := by
    simpa [walkAll] using heq
  have hnone : StartsAbove level ([] : List (Nat × α)) := by simp [StartsAbove]
  exact List.singleton_inj.mp (walkAll_append_inj _ _ hnone hnone hall).1

end Rose

/-! ## Syntax trees -/

theorem LiteralKind.name_inj {kind kind' : LiteralKind} (h : kind.name = kind'.name) :
    kind = kind' := by
  cases kind <;> cases kind' <;> simp_all [name]

namespace Node

variable {α : Type}

/-- The tree with a value in the place of each node. -/
def rose (f : Node → α) (node : Node) : Rose α :=
  .node (f node) (node.children.attach.map fun ⟨child, _⟩ => child.rose f)
  termination_by node.count
  decreasing_by exact count_lt_of_mem_children ‹_›

theorem rose_eq (f : Node → α) (node : Node) :
    node.rose f = .node (f node) (node.children.map (rose f)) := by
  rw [rose, List.attach_map_val]

/-- Two trees are the same with values in place of their nodes when the values are, and
the children are. -/
theorem rose_inj_iff {f : Node → α} {a b : Node} :
    a.rose f = b.rose f ↔ f a = f b ∧ a.children.map (rose f) = b.children.map (rose f) := by
  rw [rose_eq f a, rose_eq f b, Rose.node.injEq]

/-- The tree without the depths that are kept in it: the sort and the texts of each node. -/
def erased (node : Node) : Rose (NodeType × List String) :=
  node.rose fun node => (node.type, node.payload)

/-- The depth of a node that is built follows from everything else about it. -/
theorem Built.ext {a b : Node} (ha : a.Built) (hb : b.Built) (htype : a.type = b.type)
    (hpayload : a.payload = b.payload) (hchildren : a.children = b.children) : a = b := by
  cases ha with
  | literal =>
    cases hb with
    | literal =>
      simp only [payload, List.cons.injEq, and_true] at hpayload
      rw [LiteralKind.name_inj hpayload.1, hpayload.2]
    | _ => cases htype
  | identifier =>
    cases hb with
    | identifier =>
      rw [List.singleton_inj.mp hpayload]
    | _ => cases htype
  | binary =>
    cases hb with
    | binary =>
      simp only [children_binary, List.cons.injEq, and_true] at hchildren
      rw [List.singleton_inj.mp hpayload, hchildren.1, hchildren.2]
    | _ => cases htype
  | @lambda parameters =>
    cases hb with
    | @lambda parameters' =>
      have hparameters : parameters = parameters' := hpayload
      rw [hparameters, List.singleton_inj.mp hchildren]
    | _ => cases htype
  | apply =>
    cases hb with
    | apply =>
      obtain ⟨hcallee, harguments⟩ := List.cons.inj hchildren
      rw [hcallee, harguments]
    | _ => cases htype
  | letBind =>
    cases hb with
    | letBind =>
      simp only [children_letBind, List.cons.injEq, and_true] at hchildren
      rw [List.singleton_inj.mp hpayload, hchildren.1, hchildren.2]
    | _ => cases htype
  | branch =>
    cases hb with
    | branch =>
      simp only [children_branch, List.cons.injEq, and_true] at hchildren
      rw [hchildren.1, hchildren.2.1, hchildren.2.2]
    | _ => cases htype

theorem Built.eq_of_erased {a b : Node} (ha : a.Built) (hb : b.Built)
    (h : a.erased = b.erased) : a = b := by
  induction a using children_induction generalizing b with
  | step a ih =>
    obtain ⟨hparts, hchildren⟩ := rose_inj_iff.mp h
    obtain ⟨htype, hpayload⟩ := Prod.mk.inj hparts
    refine ha.ext hb htype hpayload (eq_of_map_eq_map (fun child hmem child' hmem' => ?_) hchildren)
    exact ih child hmem (ha.children child hmem) (hb.children child' hmem')

end Node

end MlFront
