import MlFront.Proofs.Printer.Image
import MlFront.Proofs.Text.Written
import MlFront.Proofs.Tree.Walk

/-!
# Outlines are faithful

An outline has a line for each node of a tree, in the order of `Node.walk`, with two
blanks in front of the label for each level (`Outlined`). The labels of a tree that a
program has hold no line feed and none starts with a blank, so the levels and the labels
are read back from the text, and from these the tree of labels.
-/

namespace MlFront.Node

/-- The line of an outline with the label of a node on a level. -/
def lineOf (level : Nat) (label : String) : List Char :=
  List.replicate (2 * level) ' ' ++ label.toList

/-- What the outline of a tree shows. -/
structure Outlined (node : Node) : Prop where
  /-- There is a line for each entry of the walk, and each line ends with a line feed. -/
  lines : node.outline.toList.splitOn '\n' =
    (node.walk 0).map (fun entry => lineOf entry.1 entry.2.label) ++ [[]]
  preorder : node.preorder = node.walk 0
  /-- The levels are the distances from the root. -/
  levels : ∀ level below, (level, below) ∈ node.walk 0 ↔ Descends level node below
  size : (node.walk 0).length = node.size
  deepest : IsGreatest {level | ∃ below, (level, below) ∈ node.walk 0} (node.depth - 1)

/-! ## The text of an outline -/

theorem toList_outlineLine (level : Nat) (node : Node) :
    (node.outlineLine level).toList = lineOf level node.label ++ ['\n'] := by
  simp [outlineLine, toList_pushn, lineOf]

/-- Behind its own line come the outlines of the children, one level further in. -/
theorem outlineFrom_eq (level : Nat) (done : String) (node : Node) :
    outlineFrom level done node =
      outlineAllFrom (level + 1) (done ++ node.outlineLine level) node.children := by
  cases node <;> rfl

/-- The text of the lines for the entries of a walk. -/
def textOf (entries : List (Nat × Node)) : List Char :=
  (entries.map fun entry => lineOf entry.1 entry.2.label).flatMap (· ++ ['\n'])

theorem toList_outlineAllFrom {nodes : List Node}
    (h : ∀ node ∈ nodes, ∀ level done,
      (outlineFrom level done node).toList = done.toList ++ textOf (node.walk level))
    (level : Nat) (done : String) :
    (outlineAllFrom level done nodes).toList =
      done.toList ++ textOf (nodes.flatMap (walk level)) := by
  induction nodes generalizing done with
  | nil => simp [outlineAllFrom, textOf]
  | cons node rest ih =>
    obtain ⟨hnode, hrest⟩ := List.forall_mem_cons.mp h
    rw [outlineAllFrom, ih hrest, hnode]
    simp [textOf]

theorem toList_outlineFrom (level : Nat) (done : String) (node : Node) :
    (outlineFrom level done node).toList = done.toList ++ textOf (node.walk level) := by
  induction node using children_induction generalizing level done with
  | step node ih =>
    rw [outlineFrom_eq, toList_outlineAllFrom ih, String.toList_append, toList_outlineLine, walk_eq]
    simp [textOf]

/-! ## Labels -/

theorem unbroken_of_isWord {text : String} (h : IsWord text) : Unbroken text.toList := by
  intro c hmem
  rw [← List.take_length (l := text.toList), ← h.2.1] at hmem
  exact not_isBreak_of_not_isBlank (not_isBlank_of_mem_token hmem)

theorem WellShaped.children {node : Node} (h : node.WellShaped) :
    ∀ child ∈ node.children, child.WellShaped := by
  cases h with
  | number | boolean | identifier => exact List.forall_mem_nil _
  | binaryOp _ hleft hright => simpa [Node.children] using ⟨hleft, hright⟩
  | function _ _ hbody => simpa [Node.children] using hbody
  | application hcallee _ harguments => simpa [Node.children] using ⟨hcallee, harguments⟩
  | letIn _ hvalue hbody => simpa [Node.children] using ⟨hvalue, hbody⟩
  | ifThenElse hcondition hthen helse => simpa [Node.children] using ⟨hcondition, hthen, helse⟩

theorem WellShaped.descends {steps : Nat} {node bottom : Node} (h : node.WellShaped)
    (hdown : Descends steps node bottom) : bottom.WellShaped :=
  hdown.inherits (fun _ => WellShaped.children) h

/-- The texts that a tree holds are words, so its labels are unbroken. -/
theorem WellShaped.unbroken_label {node : Node} (h : node.WellShaped) :
    Unbroken node.label.toList := by
  cases h with
  | number h =>
    exact unbroken_append (by decide) (unbroken_of_isWord (isWord_of_isNumberShaped h))
  | boolean h => exact unbroken_append (by decide) (unbroken_of_isWord (isWord_of_boolean h))
  | identifier hname | letIn hname =>
    exact unbroken_append (by decide) (unbroken_of_isWord (isWord_of_isNameShaped hname))
  | binaryOp hoperator =>
    exact unbroken_append (by decide) (unbroken_of_isWord (isWord_of_operator hoperator))
  | function | application =>
    exact unbroken_append (unbroken_append (by decide) (unbroken_toString _)) (by decide)
  | ifThenElse =>
    show Unbroken "If".toList
    decide

theorem head?_label (node : Node) : node.label.toList.head? ≠ some ' ' := by
  cases node with
  | literal kind => cases kind <;> simp [label, toString, LiteralKind.name]
  | _ => simp [label, toString]

/-! ## Lines -/

theorem WellShaped.unbroken_lineOf {node : Node} (h : node.WellShaped) (level : Nat) :
    Unbroken (lineOf level node.label) :=
  (unbroken_replicate (by decide) _).append h.unbroken_label

theorem takeWhile_lineOf {label : String} (h : label.toList.head? ≠ some ' ') (level : Nat) :
    (lineOf level label).takeWhile (· == ' ') = List.replicate (2 * level) ' ' := by
  unfold lineOf
  rw [List.takeWhile_append_of_pos fun c hc => beq_iff_eq.mpr (List.eq_of_mem_replicate hc)]
  cases hlabel : label.toList with
  | nil => simp
  | cons c rest =>
    have hc : c ≠ ' ' := fun heq => h (by rw [hlabel, heq]; rfl)
    rw [List.takeWhile_cons_of_neg (by simpa using hc), List.append_nil]

/-- The level and the label are read back from a line, as the label starts with no blank. -/
theorem lineOf_inj {level level' : Nat} {label label' : String}
    (h : label.toList.head? ≠ some ' ') (h' : label'.toList.head? ≠ some ' ')
    (heq : lineOf level label = lineOf level' label') : level = level' ∧ label = label' := by
  have hlevels := congrArg (List.length ∘ List.takeWhile (· == ' ')) heq
  simp only [Function.comp_apply, takeWhile_lineOf h, takeWhile_lineOf h',
    List.length_replicate] at hlevels
  obtain rfl : level = level' := by omega
  exact ⟨rfl, String.toList_inj.mp (List.append_cancel_left heq)⟩

theorem toList_outline (node : Node) : node.outline.toList = textOf (node.walk 0) := by
  rw [outline, toList_outlineFrom]
  rfl

theorem WellShaped.splitOn_outline {node : Node} (h : node.WellShaped) :
    node.outline.toList.splitOn '\n' =
      (node.walk 0).map (fun entry => lineOf entry.1 entry.2.label) ++ [[]] := by
  rw [toList_outline, textOf, splitOn_terminated]
  rw [List.forall_mem_map]
  rintro ⟨level, below⟩ hmem
  obtain ⟨steps, -, hdown⟩ := mem_walk_iff.mp hmem
  exact (h.descends hdown).unbroken_lineOf level

theorem outlined_of_built {node : Node} (hbuilt : node.Built) (hshaped : node.WellShaped) :
    node.Outlined where
  lines := hshaped.splitOn_outline
  preorder := node.preorder_eq_walk
  levels level below := by simp [mem_walk_iff]
  size := by rw [length_walk, size_eq_count]
  deepest := by
    rw [hbuilt.depth_eq_height]
    constructor
    · obtain ⟨steps, leaf, hheight, hdown, -⟩ := exists_leaf node
      exact ⟨leaf, mem_walk_iff.mpr ⟨steps, by omega, hdown⟩⟩
    · rintro level ⟨below, hmem⟩
      obtain ⟨steps, rfl, hdown⟩ := mem_walk_iff.mp hmem
      have hle := hdown.height_le
      have hpos : 0 < below.height := by rw [height_eq]; omega
      omega

/-! ## Reading an outline back -/

/-- The text of an outline has the labels in it and nothing else of the nodes. -/
theorem toList_outline_eq_rose (node : Node) :
    node.outline.toList =
      (((node.rose label).walk 0).map fun entry => lineOf entry.1 entry.2).flatMap
        (· ++ ['\n']) := by
  rw [toList_outline, textOf, ← map_walk, List.map_map]
  rfl

theorem WellShaped.outline_inj {node node' : Node} (h : node.WellShaped) (h' : node'.WellShaped)
    (heq : node.outline = node'.outline) : node.rose label = node'.rose label := by
  have hlines : (node.walk 0).map (fun entry => lineOf entry.1 entry.2.label) =
      (node'.walk 0).map fun entry => lineOf entry.1 entry.2.label := by
    have hsplit : node.outline.toList.splitOn '\n' = node'.outline.toList.splitOn '\n' := by
      rw [heq]
    rw [h.splitOn_outline, h'.splitOn_outline] at hsplit
    exact List.append_cancel_right hsplit
  have hentries : (node.walk 0).map (fun entry => (entry.1, entry.2.label)) =
      (node'.walk 0).map fun entry => (entry.1, entry.2.label) := by
    refine eq_of_map_eq_map (f := fun entry => lineOf entry.1 entry.2) ?_ (by
      simpa only [List.map_map, Function.comp_def] using hlines)
    rw [List.forall_mem_map]
    rintro ⟨level, below⟩ - entry hentry hline
    obtain ⟨⟨level', below'⟩, -, rfl⟩ := List.mem_map.mp hentry
    obtain ⟨rfl, hlabel⟩ := lineOf_inj (head?_label below) (head?_label below') hline
    rw [hlabel]
  rw [map_walk, map_walk] at hentries
  exact Rose.walk_inj.mp hentries

/-- The size of a tree is one more than the sizes of its children together; the outline
of a tree that a program has shows the tree (`Outlined`); and two such trees have the
same outline just when their trees of labels are the same. -/
theorem outlines_faithful :
    (∀ node : Node, node.size = 1 + (node.children.map size).sum) ∧
    (∀ tokens source node, parse tokens source = .ok (some node) → node.Outlined) ∧
    (∀ tokens source node tokens' source' node', parse tokens source = .ok (some node) →
      parse tokens' source' = .ok (some node') →
      (node.outline = node'.outline ↔ node.rose label = node'.rose label)) := by
  refine ⟨size_eq_sum, fun tokens source node hparse => ?_, ?_⟩
  · have hprintable := Grammar.printable_of_parse hparse
    exact outlined_of_built hprintable.built hprintable.wellShaped
  · intro tokens source node tokens' source' node' hparse hparse'
    have hshaped := (Grammar.printable_of_parse hparse).wellShaped
    have hshaped' := (Grammar.printable_of_parse hparse').wellShaped
    refine ⟨hshaped.outline_inj hshaped', fun hrose => String.toList_inj.mp ?_⟩
    rw [toList_outline_eq_rose, toList_outline_eq_rose, hrose]

/-- The name of a parameter is in no label: two trees have one outline. -/
theorem outlines_faithful_parameter :
    let node := lambda ["x"] (.literal .number "1")
    let node' := lambda ["y"] (.literal .number "1")
    node ≠ node' ∧ node.Outlined ∧ node'.Outlined ∧
      (node.outline = node'.outline ↔ node.rose label = node'.rose label) := by
  intro node node'
  have hparse : parse (tokenize "fn x -> 1") "" = .ok (some node) := by decide +kernel
  have hparse' : parse (tokenize "fn y -> 1") "" = .ok (some node') := by decide +kernel
  obtain ⟨-, houtlined, hsame⟩ := outlines_faithful
  exact ⟨by decide, houtlined _ _ _ hparse, houtlined _ _ _ hparse',
    hsame _ _ _ _ _ _ hparse hparse'⟩

end MlFront.Node
