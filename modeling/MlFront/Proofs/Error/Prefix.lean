import MlFront.Proofs.Grammar.Complete
import MlFront.Proofs.Parser.Breaks
import MlFront.Proofs.Parser.Locality
import MlFront.Proofs.Parser.Tail

/-!
# What has been read up to a fault is the beginning of a phrase

`Unfinished category levels tokens cause`: behind these tokens a rule of the category may
fail with the cause. They can be completed to a phrase, and a limit is only passed after
enough of them: each level that has been opened was opened behind a token of its own, and
a tree has no more levels than it has tokens. The rules are taken in the order in which
they are built on each other; `Completes` is what they need of the rule for the
expressions inside of them.
-/

namespace MlFront

/-- Whether an expression one level further in may start behind the token. -/
def Token.deepens (token : Token) : Bool :=
  token.text ∈ ["(", "=", "if", "then"]

namespace Grammar

open ParseM

/-! ## Phrases -/

theorem StartsWith.of_isPrefix {words : List String} {first tokens : List Token}
    (h : StartsWith words first) (hahead : first <+: tokens) : StartsWith words tokens := by
  obtain ⟨rest, rfl⟩ := hahead
  cases first with
  | nil => simp [StartsWith] at h
  | cons token more => simpa using h

theorem length_le_flatMap {arguments : List (List Token × Node)} {argument : List Token × Node}
    (h : argument ∈ arguments) : argument.1.length ≤ (arguments.flatMap Prod.fst).length := by
  rw [List.flatMap_def]
  exact (List.sublist_flatten_of_mem (List.mem_map_of_mem h)).length_le

/-- A tree has no more levels than the phrase has tokens. -/
theorem Derives.depth_le_length {category : Category} {levels : Nat} {tokens : List Token}
    {node : Node} (h : Derives category levels tokens node) : node.depth ≤ tokens.length := by
  induction h with
  | letIn | ifThenElse | function | binary => simp; omega
  | operation _ _ ih | tighter _ _ ih | operand _ ih | callee _ ih => exact ih
  | number | boolean | name => exact Nat.le_refl 1
  | group => simp; omega
  | @apply _ callee calleeNode arguments hcallee hsome _ harguments ihcallee iharguments =>
    -- beside each of the parts there is another one, and no part is empty
    have hchild : ∀ child ∈ calleeNode :: arguments.map Prod.snd,
        child.depth < (callee ++ arguments.flatMap Prod.fst).length := by
      rw [List.length_append]
      refine List.forall_mem_cons.mpr ⟨?_, List.forall_mem_map.mpr fun argument hmem => ?_⟩
      · obtain ⟨argument, hmem⟩ := List.exists_mem_of_ne_nil _ hsome
        have := List.length_pos_iff.mpr (harguments argument hmem).ne_nil
        have := length_le_flatMap hmem
        omega
      · have := List.length_pos_iff.mpr hcallee.ne_nil
        have := length_le_flatMap hmem
        have := iharguments argument hmem
        omega
    obtain ⟨child, hmem, hmax⟩ := List.mem_map.mp (List.max_mem
      (l := (calleeNode :: arguments.map Prod.snd).map Node.depth) (List.cons_ne_nil _ _))
    have hlt := hchild child hmem
    rw [Node.depth_apply, ← hmax]
    omega

/-- The token with the given text that a program is completed with. -/
def filler (text : String) : Token :=
  ⟨text, 1⟩

@[simp] theorem filler_text (text : String) : (filler text).text = text := rfl

theorem isNameShaped_filler : (filler "x").isNameShaped = true := by decide

/-- A name is a phrase of every category. -/
theorem derives_filler (category : Category) (levels : Nat) :
    Derives category (levels + 1) [filler "x"] (.identifier "x") := by
  have hprimary (levels : Nat) : Derives .primary levels [filler "x"] (.identifier "x") :=
    .name isNameShaped_filler (by decide)
  have hoperation (power : Power) (levels : Nat) :
      Derives (.operation power) levels [filler "x"] (.identifier "x") :=
    Derives.loosen (.operand (.callee (hprimary levels))) power.rank_le
  cases category with
  | expression => exact .operation (hoperation .relational levels) (by simp [openers])
  | operation power => exact hoperation power _
  | application => exact .callee (hprimary _)
  | primary => exact hprimary _

/-- The tokens are the beginning of a phrase of the category. -/
def Viable (category : Category) (tokens : List Token) : Prop :=
  ∃ levels suffix node, Derives category levels (tokens ++ suffix) node

theorem viable_nil (category : Category) : Viable category [] :=
  ⟨1, [filler "x"], _, derives_filler category 0⟩

/-- An open form only lacks its last expression. -/
theorem Opens.viable {levels : Nat} {tokens opening : List Token} {form : OpenForm}
    (h : Opens levels opening form) (hstart : tokens <+: opening) :
    Viable .expression tokens := by
  obtain ⟨suffix, rfl⟩ := hstart
  refine ⟨levels + 1, suffix ++ [filler "x"], form.close (.identifier "x"), ?_⟩
  simpa using h.close (derives_filler .expression levels)

/-- Behind the tokens, a rule for the category may fail with the cause. -/
structure Unfinished (category : Category) (levels : Nat) (tokens : List Token) (cause : Cause) :
    Prop where
  /-- The tokens are the beginning of a phrase, which may open more levels than there are. -/
  viable : Viable category tokens
  /-- All levels that were left have been opened. -/
  nested : cause = .tooNested → levels ≤ tokens.countP (·.deepens)
  /-- There are more tokens than a tree may have levels. -/
  deep : cause = .tooDeep → maxDepth < tokens.length

namespace Unfinished

variable {category outer : Category} {levels outerLevels : Nat} {tokens front : List Token}
  {cause : Cause}

/-- A cause that is no limit only needs tokens that can be completed. -/
theorem of_viable (hcause : cause.isInternal = false) (h : Viable category tokens) :
    Unfinished category levels tokens cause := by
  refine ⟨h, ?_, ?_⟩
  · rintro rfl
    cases hcause
  · rintro rfl
    cases hcause

/-- Where nothing has been read, everything may follow. -/
theorem of_nil (hcause : cause.isInternal = false) : Unfinished category levels [] cause :=
  of_viable hcause (viable_nil category)

theorem of_tooDeep {node : Node} (h : Derives category levels tokens node)
    (hdeep : maxDepth < node.depth) : Unfinished category outerLevels tokens .tooDeep where
  viable := ⟨levels, [], node, by rwa [List.append_nil]⟩
  nested hcause := absurd hcause (by decide)
  deep _ := Nat.lt_of_lt_of_le hdeep h.depth_le_length

theorem lift (h : Unfinished category levels tokens cause)
    (hviable : Viable category tokens → Viable outer tokens) :
    Unfinished outer levels tokens cause :=
  ⟨hviable h.viable, h.nested, h.deep⟩

/-- What is unfinished inside of a phrase is unfinished in the phrase. -/
theorem within (h : Unfinished category levels tokens cause)
    (hlevels : outerLevels ≤ levels + front.countP (·.deepens))
    (hviable : ∀ more suffix node, levels ≤ more →
      Derives category more (tokens ++ suffix) node → Viable outer (front ++ tokens)) :
    Unfinished outer outerLevels (front ++ tokens) cause := by
  obtain ⟨⟨more, suffix, node, hderives⟩, hnested, hdeep⟩ := h
  refine ⟨?_, fun hcause => ?_, fun hcause => ?_⟩
  · exact hviable (levels + more) suffix node (Nat.le_add_right _ _)
      (hderives.mono (Nat.le_add_left _ _))
  · have := hnested hcause
    rw [List.countP_append]
    omega
  · have := hdeep hcause
    rw [List.length_append]
    omega

/-- An expression inside of a phrase stands behind a token that deepens. -/
theorem inside {token : Token} (h : Unfinished .expression levels tokens cause)
    (hmem : token ∈ front) (htoken : token.deepens = true)
    (hviable : ∀ more suffix node, levels ≤ more →
      Derives .expression more (tokens ++ suffix) node → Viable outer (front ++ tokens)) :
    Unfinished outer (levels + 1) (front ++ tokens) cause :=
  h.within (Nat.add_le_add_left (List.countP_pos_iff.mpr ⟨token, hmem, htoken⟩) _) hviable

end Unfinished

/-- The rule reads expressions inside `levels` levels, and up to a fault it has read the
beginning of one. -/
structure Completes (levels : Nat) (inner : Rule Node) : Prop where
  reads : ReadsExpressions levels inner
  breaks : ∀ state : State, state.levelsLeft = levels →
    (inner.step.run state).Breaks state (Unfinished .expression levels)

section Rules

variable {levels : Nat} {inner : Rule Node}

/-! ## Primaries and applications -/

theorem grouping_breaks (hinner : Completes levels inner) (state : State)
    (hlevels : state.levelsLeft = levels) :
    ((Rule.grouping inner).step.run state).Breaks state (Unfinished .primary (levels + 1)) := by
  refine Breaks.bind (breaks_expectOr (.of_nil rfl)) reads_expect ?_
  rintro _ openParen - ⟨rfl, hopen⟩ -
  have hgroup {more : Nat} {tokens : List Token} {node : Node}
      (h : Derives .expression more tokens node) :
      Derives .primary more (openParen :: (tokens ++ [filler ")"])) node :=
    .group hopen h rfl
  refine Breaks.bind ((hinner.breaks (state.skip 1) hlevels).mono fun tokens cause _ h => ?_)
    (hinner.reads _) ?_
  · refine h.inside (List.mem_singleton_self _) (by simp [Token.deepens, hopen])
      fun more suffix node _ hderives => ?_
    exact ⟨more, suffix ++ [filler ")"], node, by simpa using hgroup hderives⟩
  rintro tokens node - ⟨hderives, -⟩ -
  refine Breaks.map (breaks_expectOr (.of_viable rfl ⟨levels, [filler ")"], node, ?_⟩))
  simpa using hgroup hderives

theorem primary_breaks (hinner : Completes levels inner) (state : State)
    (hlevels : state.levelsLeft = levels) :
    ((Rule.primary inner).step.run state).Breaks state (Unfinished .primary (levels + 1)) := by
  simp only [Rule.primary]
  split
  · exact Outcome.breaks_error (.of_nil rfl)
  · split
    · exact Outcome.breaks_ok _ _
    · exact Outcome.breaks_ok _ _
    · exact Outcome.breaks_ok _ _
    · exact grouping_breaks hinner state hlevels
    · split
      · exact Outcome.breaks_ok _ _
      · exact Outcome.breaks_error (.of_nil rfl)

/-- The phrases are arguments of an application. -/
def AreArguments (levels : Nat) (arguments : List (List Token × Node)) : Prop :=
  ∀ argument ∈ arguments,
    ¬ StartsWith closers argument.1 ∧ Derives .primary levels argument.1 argument.2

theorem AreArguments.mono {more : Nat} {arguments : List (List Token × Node)}
    (h : AreArguments levels arguments) (hle : levels ≤ more) : AreArguments more arguments :=
  fun argument hmem => ⟨(h argument hmem).1, (h argument hmem).2.mono hle⟩

theorem AreArguments.concat {arguments : List (List Token × Node)} {tokens : List Token}
    {node : Node} (h : AreArguments levels arguments) (hclose : ¬ StartsWith closers tokens)
    (hderives : Derives .primary levels tokens node) :
    AreArguments levels (arguments ++ [(tokens, node)]) :=
  List.forall_mem_append.mpr ⟨h, List.forall_mem_singleton.mpr ⟨hclose, hderives⟩⟩

/-- A callee with arguments, or alone, is an application. -/
theorem Derives.applied {callee : List Token} {calleeNode : Node}
    {arguments : List (List Token × Node)} (hcallee : Derives .primary levels callee calleeNode)
    (harguments : AreArguments levels arguments) :
    ∃ node, Derives .application levels (callee ++ arguments.flatMap Prod.fst) node := by
  cases arguments with
  | nil => exact ⟨calleeNode, by simpa using Derives.callee hcallee⟩
  | cons argument more =>
    exact ⟨_, .apply hcallee (List.cons_ne_nil argument more)
      (fun other h => (harguments other h).1) fun other h => (harguments other h).2⟩

/-- An argument that breaks off leaves the application unfinished. -/
theorem Unfinished.argument {callee tokens : List Token} {calleeNode : Node} {cause : Cause}
    {arguments : List (List Token × Node)} (h : Unfinished .primary (levels + 1) tokens cause)
    (hcallee : Derives .primary levels callee calleeNode)
    (harguments : AreArguments levels arguments) (hclose : ¬ StartsWith closers tokens) :
    Unfinished .application (levels + 1) (callee ++ arguments.flatMap Prod.fst ++ tokens)
      cause := by
  refine h.within (Nat.le_add_right _ _) fun more suffix node hmore hderives => ?_
  have hmore := Nat.le_of_succ_le hmore
  by_cases hnone : tokens = []
  · -- nothing of the argument has been read, so it may as well be left out
    obtain ⟨whole, hderives⟩ := hcallee.applied harguments
    exact ⟨levels, [], whole, by simpa [hnone] using hderives⟩
  · have hclose : ¬ StartsWith closers (tokens ++ suffix) := by rwa [startsWith_append hnone]
    obtain ⟨whole, hderives⟩ :=
      (hcallee.mono hmore).applied ((harguments.mono hmore).concat hclose hderives)
    exact ⟨more, suffix, whole, by simpa using hderives⟩

/-- Arguments break off behind the callee and the arguments that have been read. -/
theorem argumentSteps_breaks (hinner : Completes levels inner) {callee : List Token}
    {calleeNode : Node} (hcallee : Derives .primary levels callee calleeNode)
    {read : List (List Token × Node)} (hread : AreArguments levels read) (done : List Node)
    (state : State) (hlevels : state.levelsLeft = levels) :
    ((Rule.argumentSteps (Rule.primary inner) done).run state).Breaks state fun tokens cause =>
      Unfinished .application (levels + 1) (callee ++ read.flatMap Prod.fst ++ tokens) cause := by
  induction hn : state.rest.length using Nat.strongRecOn generalizing read done state with
  | _ n ih =>
    rw [Rule.argumentSteps_eq, run_bind]
    simp only [current?, Outcome.andThen_ok]
    cases hrest : state.rest with
    | nil => exact Outcome.breaks_ok _ _
    | cons token rest =>
      simp only [List.head?_cons]
      split
      · exact Outcome.breaks_ok _ _
      · next hgo =>
        have hclose {first : List Token} (hahead : first <+: state.rest) :
            ¬ StartsWith closers first := by
          intro hstart
          have hword := hstart.of_isPrefix hahead
          rw [hrest, startsWith_cons] at hword
          rw [isTerminator_iff.mpr (List.mem_append_right _ hword)] at hgo
          exact hgo rfl
        refine Breaks.bind ((primary_breaks hinner state hlevels).mono
          fun tokens cause hahead h => h.argument hcallee hread (hclose hahead))
          (primary_reads hinner.reads state) ?_
        rintro first node hsplit ⟨hderives, -⟩ hrun
        have hlt := (Rule.primary inner).shortens state node _ hrun
        have hmore := hread.concat (hclose ⟨_, hsplit.symm⟩) hderives
        refine (ih _ (hn ▸ hlt) hmore (node :: done) (state.skip first.length) hlevels
          rfl).mono fun tokens cause _ h => ?_
        simpa using h

theorem application_breaks (hinner : Completes levels inner) (state : State)
    (hlevels : state.levelsLeft = levels) :
    ((Rule.application inner).step.run state).Breaks state
      (Unfinished .application (levels + 1)) := by
  rw [Rule.application_step]
  refine Breaks.bind ((primary_breaks hinner state hlevels).mono fun tokens cause _ h => ?_)
    (primary_reads hinner.reads state) ?_
  · refine h.lift ?_
    rintro ⟨more, suffix, node, hderives⟩
    exact ⟨more, suffix, node, .callee hderives⟩
  rintro callee calleeNode - ⟨hcallee, -⟩ -
  have hnone : AreArguments levels [] := by simp [AreArguments]
  refine Breaks.bind ((argumentSteps_breaks hinner hcallee hnone [] (state.skip callee.length)
    hlevels).mono fun tokens cause _ h => ?_) (argumentSteps_reads hinner.reads [] _) ?_
  · simpa using h
  rintro _ nodes - ⟨arguments, rfl, rfl, hclose, hall, -⟩ -
  cases arguments with
  | nil => exact Outcome.breaks_ok _ _
  | cons argument more =>
    have hwhole := Derives.apply hcallee (List.cons_ne_nil argument more) hclose hall
    exact breaks_build fun hdeep => .of_tooDeep (by simpa using hwhole) hdeep

/-! ## Runs of operators -/

/-- From states with fewer tokens, runs of operators break off within phrases. -/
def BreaksOperations (levels bound : Nat) (operand : Rule Node) : Prop :=
  ∀ minimum (state : State), state.rest.length < bound → state.levelsLeft = levels →
    ((Rule.binary .standard operand minimum).step.run state).Breaks state
      (Unfinished (.operation minimum) (levels + 1))

/-- A right operand that breaks off, or is not there, leaves the operation unfinished. -/
theorem Unfinished.rightOperand {power minimum : Power} {left tokens : List Token}
    {leftNode : Node} {operator : Token} {cause : Cause}
    (h : Unfinished (.operation power.tighter) (levels + 1) tokens cause)
    (hleft : Derives (.operation power) levels left leftNode)
    (hoperator : operator.text ∈ operators power) (hle : minimum.rank ≤ power.rank) :
    Unfinished (.operation minimum) (levels + 1) (left ++ [operator] ++ tokens) cause := by
  refine h.within (Nat.le_add_right _ _) fun more suffix node hmore hderives => ?_
  have hjoined := Derives.binary (hleft.mono (Nat.le_of_succ_le hmore)) hoperator hderives
  exact ⟨more, suffix, _, by simpa using hjoined.loosen hle⟩

/-- Folding breaks off behind a left operand that is a phrase already: at an operator
without a right operand, in a right operand, or where the tree gets too deep. -/
theorem foldSteps_breaks {operand : Rule Node} {bound : Nat}
    (hreads : ReadsOperations levels bound operand)
    (hbreaks : BreaksOperations levels bound operand) {minimum power : Power}
    {read : List Token} {left : Node} (hleft : Derives (.operation power) levels read left)
    (state : State) (hbound : state.rest.length ≤ bound) (hlevels : state.levelsLeft = levels)
    (hpower : ∀ token ∈ state.rest.head?, ∀ q, Tables.standardPower token.kind = some q →
      q.rank ≤ power.rank) :
    ((Rule.foldSteps .standard operand minimum left).run state).Breaks state fun tokens cause =>
      Unfinished (.operation minimum) (levels + 1) (read ++ tokens) cause := by
  induction hn : state.rest.length using Nat.strongRecOn generalizing power read left state with
  | _ n ih =>
    rw [Rule.foldSteps_eq, run_bind]
    simp only [operator?, Outcome.andThen_ok]
    cases hop : state.operator? .standard with
    | none => exact Outcome.breaks_ok _ _
    | some found =>
      obtain ⟨operator, q⟩ := found
      obtain ⟨token, rest, hrest, rfl, hq⟩ := State.operator?_eq_some hop
      simp only
      split
      · exact Outcome.breaks_ok _ _
      · next hmin =>
        have hq' : q.rank ≤ power.rank := hpower token (by simp [hrest]) q hq
        have hmin' : minimum.rank ≤ q.rank := by
          rw [Power.lt_iff] at hmin
          omega
        have hoperator := standardPower_eq_iff.mp hq
        have hleft' : Derives (.operation q) levels read left := hleft.loosen hq'
        refine Breaks.bind (Outcome.breaks_ok _ _) (reads_advance hrest) ?_
        rintro _ - - rfl -
        refine Breaks.bind (breaks_more ?_) reads_more ?_
        · have hnone : Unfinished (.operation q.tighter) (levels + 1) []
            (.expectedRightOperand token.text) := .of_nil rfl
          simpa using hnone.rightOperand hleft' hoperator hmin'
        rintro _ - - rfl -
        have hlt : (state.skip 1).rest.length < state.rest.length := by simp [hrest]
        refine Breaks.bind ((hbreaks q.tighter (state.skip 1) (by omega) hlevels).mono
          fun tokens cause _ h => ?_) (hreads q.tighter (state.skip 1) (by omega)) ?_
        · simpa using h.rightOperand hleft' hoperator hmin'
        rintro right rightNode - ⟨⟨hright, -⟩, hstops⟩ -
        have hfolded := Derives.binary hleft' hoperator hright
        refine Breaks.bind (breaks_build fun hdeep =>
          .of_tooDeep (by simpa using hfolded.loosen hmin') hdeep) reads_build ?_
        rintro _ node - ⟨rfl, rfl, -⟩ -
        simp only [State.skip_skip, List.length_singleton, List.length_nil, Nat.add_zero]
          at hstops ⊢
        have hlt : (state.skip (1 + right.length)).rest.length < state.rest.length := by
          rw [State.rest_skip, List.length_drop, hrest, List.length_cons]
          omega
        refine (ih _ (hn ▸ hlt) hfolded (state.skip (1 + right.length)) (by omega) hlevels
          hstops.rank_le rfl).mono fun tokens cause _ h => ?_
        simpa using h

theorem binary_breaks (hinner : Completes levels inner) (minimum : Power) (state : State)
    (hlevels : state.levelsLeft = levels) :
    ((Rule.binary .standard (Rule.application inner) minimum).step.run state).Breaks state
      (Unfinished (.operation minimum) (levels + 1)) := by
  induction hn : state.rest.length using Nat.strongRecOn generalizing minimum state with
  | _ n ih =>
    rw [Rule.binary_step]
    refine Breaks.bind ((application_breaks hinner state hlevels).mono fun tokens cause _ h => ?_)
      (application_reads hinner.reads state) ?_
    · refine h.lift ?_
      rintro ⟨more, suffix, node, hderives⟩
      exact ⟨more, suffix, node, (Derives.operand hderives).loosen minimum.rank_le⟩
    rintro read left - ⟨⟨hleft, -⟩, -⟩ hrun
    have hlt := (Rule.application inner).shortens state left _ hrun
    exact foldSteps_breaks (fun minimum state _ => binary_reads hinner.reads minimum state)
      (fun minimum state hlt' hlevels => ih _ (by omega) minimum state hlevels rfl)
      (.operand hleft) _ (Nat.le_refl _) hlevels fun _ _ q _ => q.rank_le

/-! ## Forms -/

theorem letIn_breaks (hinner : Completes levels inner) (state : State)
    (hlevels : state.levelsLeft = levels) :
    ((Rule.letIn inner).step.run state).Breaks state (Unfinished .expression (levels + 1)) := by
  refine Breaks.bind (Outcome.breaks_ok _ _) reads_currentLine ?_
  rintro _ line - ⟨rfl, -⟩ -
  refine Breaks.bind (breaks_expectOr (.of_nil rfl)) reads_expect ?_
  rintro _ letWord - ⟨rfl, hlet⟩ -
  have hopens {more : Nat} {name equals : Token} {value : List Token} {node : Node}
      (hname : name.isNameShaped = true) (hequals : equals.text = "=")
      (hvalue : Derives .expression more value node) :
      Opens more (letWord :: name :: equals :: (value ++ [filler "in"])) (.letIn name.text node) :=
    .letIn hlet hname hequals hvalue rfl
  -- up to the value a name, the `=` or the value itself is missing, and is filled in
  refine Breaks.bind (breaks_nameOr (.of_viable rfl ?_)) reads_nameOr ?_
  · exact (hopens isNameShaped_filler (filler_text "=") (derives_filler .expression 0)).viable
      ⟨_, rfl⟩
  rintro _ _ - ⟨name, rfl, hname, rfl⟩ -
  refine Breaks.bind (breaks_expectOr (.of_viable rfl ?_)) reads_expectOr ?_
  · exact (hopens hname (filler_text "=") (derives_filler .expression 0)).viable ⟨_, rfl⟩
  rintro _ equals - ⟨rfl, hequals⟩ -
  refine Breaks.bind ((hinner.breaks _ (by exact hlevels)).mono fun tokens cause _ h => ?_)
    (hinner.reads _) ?_
  · show Unfinished .expression (levels + 1) ([letWord, name, equals] ++ tokens) cause
    have hmem : equals ∈ [letWord, name, equals] := by simp
    refine h.inside hmem (by simp [Token.deepens, hequals]) fun more suffix node _ hderives => ?_
    exact (hopens hname hequals hderives).viable ⟨suffix ++ [filler "in"], by simp⟩
  rintro value valueNode - ⟨hvalue, -⟩ -
  refine Breaks.map (breaks_expectOr (.of_viable rfl ?_))
  exact (hopens hname hequals hvalue).viable ⟨[filler "in"], by simp⟩

theorem ifThenElse_breaks (hinner : Completes levels inner) (state : State)
    (hlevels : state.levelsLeft = levels) :
    ((Rule.ifThenElse inner).step.run state).Breaks state
      (Unfinished .expression (levels + 1)) := by
  refine Breaks.bind (Outcome.breaks_ok _ _) reads_currentLine ?_
  rintro _ line - ⟨rfl, -⟩ -
  refine Breaks.bind (breaks_expectOr (.of_nil rfl)) reads_expect ?_
  rintro _ ifWord - ⟨rfl, hif⟩ -
  have hopens {more : Nat} {condition first : List Token} {conditionNode firstNode : Node}
      {thenWord : Token} (hcondition : Derives .expression more condition conditionNode)
      (hthen : thenWord.text = "then") (hfirst : Derives .expression more first firstNode) :
      Opens more (ifWord :: (condition ++ thenWord :: (first ++ [filler "else"])))
        (.ifThenElse conditionNode firstNode) :=
    .ifThenElse hif hcondition hthen hfirst rfl
  refine Breaks.bind ((hinner.breaks _ (by exact hlevels)).mono fun tokens cause _ h => ?_)
    (hinner.reads _) ?_
  · show Unfinished .expression (levels + 1) ([ifWord] ++ tokens) cause
    refine h.inside (List.mem_singleton_self _) (by simp [Token.deepens, hif])
      fun more suffix node _ hderives => ?_
    have hopened := hopens (hderives.mono (Nat.le_succ _)) (filler_text "then")
      (derives_filler .expression more)
    exact hopened.viable ⟨suffix ++ [filler "then", filler "x", filler "else"], by simp⟩
  rintro condition conditionNode - ⟨hcondition, -⟩ -
  refine Breaks.bind (breaks_expectOr (.of_viable rfl ?_)) reads_expectOr ?_
  · have hopened := hopens (hcondition.mono (Nat.le_succ _)) (filler_text "then")
      (derives_filler .expression levels)
    exact hopened.viable ⟨[filler "then", filler "x", filler "else"], by simp⟩
  rintro _ thenWord - ⟨rfl, hthen⟩ -
  refine Breaks.bind ((hinner.breaks _ (by exact hlevels)).mono fun tokens cause _ h => ?_)
    (hinner.reads _) ?_
  · suffices Unfinished .expression (levels + 1)
      ((ifWord :: (condition ++ [thenWord])) ++ tokens) cause by simpa using this
    have hmem : thenWord ∈ ifWord :: (condition ++ [thenWord]) := by simp
    refine h.inside hmem (by simp [Token.deepens, hthen]) fun more suffix node hmore hderives => ?_
    exact (hopens (hcondition.mono hmore) hthen hderives).viable
      ⟨suffix ++ [filler "else"], by simp⟩
  rintro first firstNode - ⟨hfirst, -⟩ -
  refine Breaks.map (breaks_expectOr (.of_viable rfl ?_))
  exact (hopens hcondition hthen hfirst).viable ⟨[filler "else"], by simp⟩

theorem function_breaks (state : State) :
    (Rule.function.step.run state).Breaks state (Unfinished .expression (levels + 1)) := by
  refine Breaks.bind (Outcome.breaks_ok _ _) reads_currentLine ?_
  rintro _ line - ⟨rfl, -⟩ -
  refine Breaks.bind (breaks_expectOr (.of_nil rfl)) reads_expect ?_
  rintro _ fnWord - ⟨rfl, hfn⟩ -
  refine Breaks.bind (Outcome.breaks_ok _ _) reads_parameters ?_
  rintro parameters _ - ⟨hparameters, rfl, -⟩ -
  simp only [Token.isParameter_eq] at hparameters
  refine Breaks.map (breaks_arrow (.of_viable rfl ?_) fun arrow harrow hsome => .of_viable rfl ?_)
  · -- one more parameter does no harm where there are some already
    have hmore : ∀ token ∈ parameters ++ [filler "x"], token.isNameShaped = true :=
      List.forall_mem_append.mpr ⟨hparameters, List.forall_mem_singleton.mpr isNameShaped_filler⟩
    have hopened : Opens 0 _ _ := .function hfn (by simp) hmore (filler_text "->")
    exact hopened.viable ⟨[filler "x", filler "->"], by simp⟩
  · simp only [List.map_eq_nil_iff, ne_eq] at hsome
    have hopened : Opens 0 _ _ :=
      .function hfn hsome hparameters (Token.kind_eq_arrow_iff.mp harrow)
    exact hopened.viable ⟨[], by simp⟩

theorem form_breaks (hinner : Completes levels inner) (form : Form) (state : State)
    (hlevels : state.levelsLeft = levels) :
    ((form.rule inner).step.run state).Breaks state (Unfinished .expression (levels + 1)) := by
  cases form with
  | letIn => exact letIn_breaks hinner state hlevels
  | ifThenElse => exact ifThenElse_breaks hinner state hlevels
  | function => exact function_breaks state

end Rules

/-! ## Expressions -/

theorem Opens.mono {levels more : Nat} {tokens : List Token} {form : OpenForm}
    (h : Opens levels tokens form) (hle : levels ≤ more) : Opens more tokens form := by
  cases h with
  | letIn hlet hname hequals hvalue hin => exact .letIn hlet hname hequals (hvalue.mono hle) hin
  | ifThenElse hif hcondition hthen hfirst helse =>
    exact .ifThenElse hif (hcondition.mono hle) hthen (hfirst.mono hle) helse
  | function hfn hsome hparameters harrow => exact .function hfn hsome hparameters harrow

theorem readsExpressions (levels : Nat) : ReadsExpressions levels (.expression .standard levels) :=
  fun state => (expression_reads levels state).mono fun _ _ _ h => h.1

theorem plain_reads {levels : Nat} (state : State) (hlevels : state.levelsLeft = levels) :
    ((plain .standard).run state).Reads state fun tokens node _ =>
      Accepted .expression (levels + 1) tokens node := by
  subst hlevels
  rw [← inside_eq]
  refine (chainSteps_reads (readsExpressions _) [] state).mono ?_
  rintro tokens _ rest ⟨node, hderives, rfl, hdepth, -⟩
  exact ⟨hderives, hdepth⟩

/-- An expression breaks off in its first form, behind that form, or in its operators. -/
theorem plain_breaks {levels : Nat} (hinner : Completes levels (.expression .standard levels))
    (state : State) (hlevels : state.levelsLeft = levels) :
    ((plain .standard).run state).Breaks state (Unfinished .expression (levels + 1)) := by
  induction hn : state.rest.length using Nat.strongRecOn generalizing state with
  | _ n ih =>
    rw [plain_eq, run_bind]
    simp only [current?, Outcome.andThen_ok]
    cases hrest : state.rest with
    | nil => exact Outcome.breaks_error (.of_nil rfl)
    | cons token rest =>
      simp only [List.head?_cons]
      split
      · next hform =>
        have hopen : token.text ∉ openers := standardForm_eq_none_iff.mp hform
        subst hlevels
        refine (binary_breaks hinner .relational state rfl).mono fun tokens cause hahead h => ?_
        refine h.lift ?_
        rintro ⟨more, suffix, node, hderives⟩
        by_cases hnone : tokens = []
        · exact hnone ▸ viable_nil .expression
        · refine ⟨more + 1, suffix, node, .operation hderives fun hstart => hopen ?_⟩
          have hword := ((startsWith_append hnone).mp hstart).of_isPrefix hahead
          rwa [hrest, startsWith_cons] at hword
      · next form hform =>
        have hstep : (form.step .standard).run state =
            (form.rule (.expression .standard levels)).step.run state := by rw [← hlevels]; rfl
        refine Breaks.bind (hstep ▸ form_breaks hinner form state hlevels)
          (hstep ▸ form_reads hinner.reads form state) ?_
        rintro tokens opened - hopened hrun
        have hlt := (form.rule (.expression .standard levels)).shortens state opened _
          (hstep ▸ hrun)
        refine Breaks.bind ((ih _ (hn ▸ hlt) _ (by exact hlevels) rfl).mono
          fun more cause _ h => ?_) (plain_reads _ (by exact hlevels)) ?_
        · -- the form is closed around what its last expression is completed to
          refine h.within (Nat.le_add_right _ _) fun deeper suffix node hdeeper hderives => ?_
          obtain ⟨extra, rfl⟩ := Nat.exists_eq_add_of_le' hdeeper
          have hclosed := (hopened.mono (Nat.le_add_left levels extra)).close hderives
          exact ⟨_, suffix, _, by simpa using hclosed⟩
        rintro body node - ⟨hbody, -⟩ -
        exact breaks_build fun hdeep => .of_tooDeep (by simpa using hopened.close hbody) hdeep

theorem completes_expression (levels : Nat) : Completes levels (.expression .standard levels) := by
  induction levels with
  | zero =>
    refine ⟨readsExpressions 0, fun state hlevels => ?_⟩
    have hnested : Unfinished .expression 0 [] .tooNested :=
      ⟨viable_nil _, fun _ => Nat.zero_le _, fun hcause => absurd hcause (by decide)⟩
    refine breaks_nested (fun _ => hnested) fun hlevel => ?_
    unfold State.levelsLeft at hlevels
    omega
  | succ levels ih =>
    refine ⟨readsExpressions (levels + 1), fun state hlevels => ?_⟩
    unfold State.levelsLeft at hlevels
    rw [Rule.expression_succ]
    refine breaks_nested (fun hfull => by omega) fun hlevel => ?_
    have hinside : State.levelsLeft { state with nesting := state.nesting + 1 } = levels := by
      unfold State.levelsLeft
      simp only
      omega
    have hbreaks := plain_breaks ih _ hinside
    rw [← inside_eq] at hbreaks
    subst hinside
    exact hbreaks

end Grammar

open Grammar

/-- The tokens in front of an error are the beginning of a program. -/
theorem unfinished_of_parse_eq_error {tokens : List Token} {source : String} {error : Error}
    (h : parse tokens source = .error error) :
    Unfinished .expression maxNesting (tokens.take error.position.tokenIndex) error.cause := by
  obtain ⟨-, fault, after, hrun, rfl⟩ := parse_eq_error_iff.mp h
  have hlocal := Entry.expression.localFrom_step .standard (.start tokens)
  obtain ⟨hindex, htokens⟩ := hlocal.of_error hrun
  obtain ⟨taken, hrest, hunfinished⟩ :=
    (completes_expression maxNesting).breaks (.start tokens) rfl fault after hrun
  have htaken : taken = after.before.reverse :=
    List.append_cancel_right (hrest.symm.trans htokens.symm)
  have hlength : taken.length = fault.position.tokenIndex := by
    rw [htaken, List.length_reverse, hindex, State.index]
  have htake : tokens.take fault.position.tokenIndex = taken := by
    rw [← hlength, show tokens = taken ++ after.rest from hrest, List.take_left]
  exact htake ▸ hunfinished

end MlFront
