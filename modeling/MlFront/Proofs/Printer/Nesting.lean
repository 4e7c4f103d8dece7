import MlFront.Proofs.Printer.ReadBack

/-!
# The print of a tree needs no more than a phrase of it

A phrase may have parentheses that the print of its tree does without, but the
print has none that the phrase does not have. So the print needs no more levels,
and none of its expressions starts with a name that starts a form, for in the
phrase an expression would start with that name too. `Derives.fitting` says this
for the phrases of every category.
-/

namespace MlFront.Grammar

variable {node : Node} {levels : Nat} {tokens : List Token}

/-- The expressions inside the print of the node need no more than some levels
beyond the one that the node is on. -/
def FitsInside (levels : Nat) (node : Node) : Prop :=
  ∀ level, ∀ expression ∈ node.expressionsFrom level, Fits (level + levels) expression

/-- The node can be printed as an expression of its own within some levels. -/
def FitsAlone (levels : Nat) (node : Node) : Prop :=
  ∃ more, levels = more + 1 ∧ FitsInside more node ∧ ∀ name ∈ node.firstName, name ∉ openers

/-- The node can be printed in the slot within some levels. -/
def FitsIn (slot : Slot) (levels : Nat) (node : Node) : Prop :=
  ∀ level, ∀ expression ∈ slot.expressions node node.expressionsFrom level,
    Fits (level + levels) expression

/-- What an operand shows of the print of its node: the node can stand alone, as
it does in parentheses, or it needs none and starts with the first of the tokens. -/
def FitsOperand (power : Power) (levels : Nat) (tokens : List Token) (node : Node) : Prop :=
  FitsAlone levels node ∨
    (Slot.operand power).wraps node = false ∧ FitsInside levels node ∧
      ∀ name ∈ node.firstName, name ∈ openers → StartsWith openers tokens

/-- What a phrase shows of the print of its tree. -/
def Category.Fitting : Category → Nat → List Token → Node → Prop
  | .expression, levels, _, node => FitsAlone levels node
  | .operation power, levels, tokens, node => FitsOperand power levels tokens node
  | .application, levels, tokens, node => FitsOperand .primary levels tokens node
  | .primary, levels, tokens, node =>
    FitsAlone levels node ∨ categoryOf node = .primary ∧ tokens.map (·.text) = node.print

/-! ## Levels and slots -/

theorem Fits.mono {limit more : Nat} {expression : Nat × Node} (h : Fits limit expression)
    (hle : limit ≤ more) : Fits more expression :=
  ⟨Nat.le_trans h.1 hle, h.2⟩

theorem FitsInside.succ (h : FitsInside levels node) : FitsInside (levels + 1) node :=
  fun level expression hmem => (h level expression hmem).mono (by omega)

theorem FitsAlone.inside (h : FitsAlone levels node) : FitsInside levels node := by
  obtain ⟨more, rfl, hinside, -⟩ := h
  exact hinside.succ

theorem FitsAlone.succ (h : FitsAlone levels node) : FitsAlone (levels + 1) node := by
  obtain ⟨more, rfl, hinside, hname⟩ := h
  exact ⟨more + 1, rfl, hinside.succ, hname⟩

/-- On the next level, the node and the expressions inside it are within the limit. -/
theorem FitsAlone.fits (h : FitsAlone levels node) (level : Nat) :
    ∀ expression ∈ (level + 1, node) :: node.expressionsFrom (level + 1),
      Fits (level + levels) expression := by
  obtain ⟨more, rfl, hinside, hname⟩ := h
  refine List.forall_mem_cons.mpr ⟨⟨?_, hname⟩, fun expression hmem => ?_⟩
  · show level + 1 ≤ level + (more + 1)
    omega
  · exact (hinside (level + 1) expression hmem).mono (by omega)

theorem FitsAlone.fitsIn (h : FitsAlone levels node) (slot : Slot) : FitsIn slot levels node := by
  intro level expression hmem
  unfold Slot.expressions at hmem
  split at hmem
  · exact h.fits level expression hmem
  · exact h.inside level expression hmem

theorem FitsInside.fitsIn (h : FitsInside levels node) {slot : Slot}
    (hwraps : slot.wraps node = false) : FitsIn slot levels node := by
  intro level expression hmem
  rw [Slot.expressions, if_neg (Bool.eq_false_iff.mp hwraps)] at hmem
  exact h level expression hmem

theorem fitsInside_of_primary (h : categoryOf node = .primary) : FitsInside levels node := by
  intro level expression hmem
  cases node with
  | literal | identifier => simp [Node.expressionsFrom] at hmem
  | _ => cases h

theorem wraps_of_primary {slot : Slot} (h : categoryOf node = .primary)
    (hslot : slot ≠ .argument) : slot.wraps node = false := by
  cases slot with
  | argument => exact absurd rfl hslot
  | operand | callee =>
    cases node with
    | literal | identifier => rfl
    | _ => cases h

theorem wraps_of_tighter {power : Power} (h : (Slot.operand power.tighter).wraps node = false) :
    (Slot.operand power).wraps node = false := by
  cases node with
  | binaryOp operator =>
    simp only [Slot.wraps, decide_eq_false_iff_not, Power.lt_iff] at h ⊢
    rw [Power.rank_tighter] at h
    have hrank : power.rank ≤ 3 := by cases power <;> decide
    omega
  | literal | identifier | application => rfl
  | function | letIn | ifThenElse => cases h

/-! ## Expressions -/

/-- The last expression of a form is on the level of the form. -/
theorem FitsAlone.fits_last (h : FitsAlone (levels + 1) node) (level : Nat) :
    ∀ expression ∈ (level, node) :: node.expressionsFrom level, Fits (level + levels) expression := by
  obtain ⟨more, hmore, hinside, hname⟩ := h
  obtain rfl : levels = more := by omega
  exact List.forall_mem_cons.mpr ⟨⟨Nat.le_add_right level levels, hname⟩, hinside level⟩

theorem FitsAlone.letBind {name : String} {value body : Node} (hvalue : FitsAlone levels value)
    (hbody : FitsAlone (levels + 1) body) : FitsAlone (levels + 1) (.letBind name value body) := by
  refine ⟨levels, rfl, fun level => ?_, by simp [Node.letBind, Node.firstName]⟩
  rw [Node.letBind, Node.expressionsFrom, List.forall_mem_append]
  exact ⟨hvalue.fits level, hbody.fits_last level⟩

theorem FitsAlone.branch {condition thenBranch elseBranch : Node}
    (hcondition : FitsAlone levels condition) (hthen : FitsAlone levels thenBranch)
    (helse : FitsAlone (levels + 1) elseBranch) :
    FitsAlone (levels + 1) (.branch condition thenBranch elseBranch) := by
  refine ⟨levels, rfl, fun level => ?_, by simp [Node.branch, Node.firstName]⟩
  rw [Node.branch, Node.expressionsFrom, List.forall_mem_append, List.forall_mem_append]
  exact ⟨hcondition.fits level, hthen.fits level, helse.fits_last level⟩

theorem FitsAlone.lambda {parameters : List String} {body : Node}
    (hbody : FitsAlone (levels + 1) body) : FitsAlone (levels + 1) (.lambda parameters body) := by
  refine ⟨levels, rfl, fun level => ?_, by simp [Node.lambda, Node.firstName]⟩
  rw [Node.lambda, Node.expressionsFrom]
  exact hbody.fits_last level

theorem FitsOperand.alone {power : Power} (h : FitsOperand power levels tokens node)
    (hopen : ¬ StartsWith openers tokens) : FitsAlone (levels + 1) node := by
  rcases h with h | ⟨-, hinside, hname⟩
  · exact h.succ
  · exact ⟨levels, rfl, hinside, fun name hmem hopener => hopen (hname name hmem hopener)⟩

/-! ## Operations and applications -/

theorem FitsOperand.fitsIn {power : Power} (h : FitsOperand power levels tokens node) :
    FitsIn (.operand power) levels node := by
  rcases h with h | ⟨hwraps, hinside, -⟩
  · exact h.fitsIn _
  · exact hinside.fitsIn hwraps

/-- In front of more tokens, the first node starts with the same name. -/
theorem FitsOperand.startsWith {power : Power} (h : FitsOperand power levels tokens node)
    (hsome : tokens ≠ []) (rest : List Token) :
    ∀ name ∈ node.firstName, name ∈ openers → StartsWith openers (tokens ++ rest) := by
  intro name hmem hopener
  rw [startsWith_append hsome]
  rcases h with ⟨_, _, _, hname⟩ | ⟨-, -, hname⟩
  · exact absurd hopener (hname name hmem)
  · exact hname name hmem hopener

theorem FitsOperand.loosen {power : Power} (h : FitsOperand power.tighter levels tokens node) :
    FitsOperand power levels tokens node :=
  h.imp_right fun h => ⟨wraps_of_tighter h.1, h.2⟩

theorem FitsOperand.binary {power : Power} {operator : Token} {left right : List Token}
    {leftNode rightNode : Node} (hleft : FitsOperand power levels left leftNode)
    (hsome : left ≠ []) (hoperator : operator.text ∈ operators power)
    (hright : FitsOperand power.tighter levels right rightNode) :
    FitsOperand power levels (left ++ operator :: right)
      (.binary operator.text leftNode rightNode) := by
  obtain rfl := powerOf_eq hoperator
  refine .inr ⟨?_, fun level => ?_, ?_⟩
  · simp [Node.binary, Slot.wraps, Power.lt_iff]
  · rw [Node.binary, Node.expressionsFrom, List.forall_mem_append]
    exact ⟨hleft.fitsIn level, hright.fitsIn level⟩
  · rw [Node.binary, Node.firstName]
    split
    · simp
    · exact hleft.startsWith hsome _

theorem fitsOperand_of_primary (h : Category.primary.Fitting levels tokens node) :
    FitsOperand .primary levels tokens node := by
  refine h.imp_right fun ⟨hcategory, htexts⟩ =>
    ⟨wraps_of_primary hcategory (by decide), fitsInside_of_primary hcategory, ?_⟩
  intro name hname hopener
  have hhead := Node.head?_print hname []
  rw [List.append_nil, ← htexts, List.head?_map, Option.map_eq_some_iff] at hhead
  obtain ⟨token, htoken, rfl⟩ := hhead
  exact ⟨token, htoken, hopener⟩

/-- An argument needs no parentheses beyond those of the phrase. -/
theorem fitsIn_argument (h : Category.primary.Fitting levels tokens node)
    (hclose : ¬ StartsWith closers tokens) : FitsIn .argument levels node := by
  rcases h with h | ⟨hcategory, htexts⟩
  · exact h.fitsIn _
  · refine (fitsInside_of_primary hcategory).fitsIn ?_
    cases node with
    | literal => rfl
    | identifier name =>
      obtain ⟨token, rfl, rfl⟩ := List.map_eq_singleton_iff.mp htexts
      simpa [Slot.wraps] using hclose
    | _ => cases hcategory

theorem fitsIn_callee (h : Category.primary.Fitting levels tokens node) :
    FitsIn .callee levels node := by
  rcases h with h | ⟨hcategory, -⟩
  · exact h.fitsIn _
  · exact (fitsInside_of_primary hcategory).fitsIn (wraps_of_primary hcategory (by decide))

theorem fitsInside_arguments {arguments : List Node}
    (h : ∀ argument ∈ arguments, FitsIn .argument levels argument) (level : Nat) :
    ∀ expression ∈ Node.expressionsFromAll arguments level, Fits (level + levels) expression := by
  induction arguments with
  | nil => simp [Node.expressionsFromAll]
  | cons argument rest ih =>
    rw [List.forall_mem_cons] at h
    rw [Node.expressionsFromAll, List.forall_mem_append]
    exact ⟨h.1 level, ih h.2⟩

theorem FitsOperand.apply {callee : List Token} {calleeNode : Node}
    {arguments : List (List Token × Node)}
    (hcallee : Category.primary.Fitting levels callee calleeNode) (hsome : callee ≠ [])
    (hclose : ∀ argument ∈ arguments, ¬ StartsWith closers argument.1)
    (harguments : ∀ argument ∈ arguments,
      Category.primary.Fitting levels argument.1 argument.2) :
    FitsOperand .primary levels (callee ++ arguments.flatMap Prod.fst)
      (.apply calleeNode (arguments.map Prod.snd)) := by
  refine .inr ⟨rfl, fun level => ?_, ?_⟩
  · rw [Node.apply, Node.expressionsFrom, List.forall_mem_append]
    refine ⟨fitsIn_callee hcallee level, fitsInside_arguments (fun node hnode => ?_) level⟩
    obtain ⟨argument, hmem, rfl⟩ := List.mem_map.mp hnode
    exact fitsIn_argument (harguments argument hmem) (hclose argument hmem)
  · rw [Node.apply, Node.firstName]
    split
    · simp
    · exact (fitsOperand_of_primary hcallee).startsWith hsome _

theorem Derives.fitting {category : Category} (h : Derives category levels tokens node) :
    category.Fitting levels tokens node := by
  induction h with
  | letIn _ _ _ _ _ _ ihvalue ihbody => exact ihvalue.letBind ihbody
  | ifThenElse _ _ _ _ _ _ ihcondition ihfirst ihlast => exact .branch ihcondition ihfirst ihlast
  | function _ _ _ _ _ ihbody => exact ihbody.lambda
  | operation _ hopen ih => exact ih.alone hopen
  | binary hleft hoperator _ ihleft ihright => exact ihleft.binary hleft.ne_nil hoperator ihright
  | tighter _ _ ih => exact ih.loosen
  | operand _ ih => exact ih
  | callee _ ih => exact fitsOperand_of_primary ih
  | apply hcallee _ hclose _ ihcallee iharguments =>
    exact .apply ihcallee hcallee.ne_nil hclose iharguments
  | number | boolean | name => exact .inr ⟨rfl, rfl⟩
  | group _ _ _ ih => exact .inl ih

end MlFront.Grammar
