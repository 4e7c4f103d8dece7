import MlFront.Proofs.Precedence.Tree

/-!
# Folding operators gives the grouped tree

Whatever powers the tables give to the binary operators, a chain of operands is read
whole, and its node is that of the grouped tree, unless that tree is too deep
(`Outcome.Gives`). The parser takes the links of a chain in the order in which they
are put on a tree (`OperatorTree.cut_induction`): a right operand ends before the first
operator that is not tight enough, and folding goes on from there with a left operand
that takes this operator.
-/

namespace MlFront

open ParseM Grammar OperatorTree

/-- What a chain of operators of at least the given power ends before. -/
def StopsAt (tables : Tables) (minimum : Power) (rest : List Token) : Prop :=
  ∀ token ∈ rest.head?, token.isTerminator = true ∨
    token.isBinaryOperator = true ∧
      ∀ power, tables.power token.kind = some power → power < minimum

/-- Only binary operators have a power. -/
def Tables.OnlyBinary (tables : Tables) : Prop :=
  ∀ kind power, tables.power kind = some power → kind.isBinaryOperator = true

/-- The outcome is not that a limit was passed. -/
def Outcome.WithinLimits {α : Type} (outcome : Outcome α) : Prop :=
  ∀ fault after, outcome = .error fault after →
    fault.cause ≠ .tooNested ∧ fault.cause ≠ .tooDeep

/-! ## Outcomes that give a tree -/

section Gives

variable {tables : Tables} {nesting : Nat} {state middle after : State} {outcome : Outcome Node}
  {tree whole left right : OperatorTree tables nesting} {operator : Operator tables}

/-- The outcome is the node of the tree if the tree fits, and else that it is too deep. -/
structure Outcome.Gives (outcome : Outcome Node) (tree : OperatorTree tables nesting)
    (after : State) : Prop where
  ok : tree.Fits → outcome = .ok tree.node after
  tooDeep : ¬ tree.Fits → ∃ fault stop, outcome = .error fault stop ∧ fault.cause = .tooDeep

theorem Outcome.Gives.withinLimits_iff (h : outcome.Gives tree after) :
    outcome.WithinLimits ↔ tree.Fits := by
  constructor
  · intro hlimits
    by_contra hfits
    obtain ⟨fault, stop, herror, hcause⟩ := h.tooDeep hfits
    exact (hlimits fault stop herror).2 hcause
  · intro hfits fault stop herror
    rw [h.ok hfits] at herror
    cases herror

/-- A tree that is a part of another is parsed first. -/
theorem ParseM.gives_bind {step : ParseM Node} {next : Node → ParseM Node}
    (h : (step.run state).Gives tree middle) (hpart : whole.Fits → tree.Fits)
    (hnext : tree.Fits → ((next tree.node).run middle).Gives whole after) :
    ((step >>= next).run state).Gives whole after := by
  by_cases hfits : tree.Fits
  · rw [run_bind_of_ok (h.ok hfits)]
    exact hnext hfits
  · obtain ⟨fault, stop, herror, hcause⟩ := h.tooDeep hfits
    refine ⟨fun hwhole => absurd (hpart hwhole) hfits, fun _ => ⟨fault, stop, ?_, hcause⟩⟩
    rw [run_bind, herror, Outcome.andThen_error]

theorem ParseM.gives_build :
    ((build (join operator left right).node).run state).Gives (join operator left right) state := by
  simp only [build]
  split
  · next hdeep =>
    refine ⟨fun hfits => absurd (hfits operator rfl) (Nat.not_le_of_lt hdeep), fun _ => ?_⟩
    exact ⟨_, _, rfl, rfl⟩
  · next hdepth =>
    refine ⟨fun _ => rfl, fun hfits => ?_⟩
    exact absurd (fun _ _ => Nat.le_of_not_lt hdepth) hfits

end Gives

/-! ## One turn -/

theorem State.skip_append (before taken rest : List Token) (nesting : Nat) :
    State.skip ⟨before, taken ++ rest, nesting⟩ taken.length =
      ⟨taken.reverse ++ before, rest, nesting⟩ := by
  simp [skip]

theorem Kind.isBinaryOperator_of_isTerminator {kind : Kind} (h : kind.isTerminator = true) :
    kind.isBinaryOperator = false := by
  cases kind <;> first | rfl | cases h

section Chain

variable {tables : Tables} {nesting : Nat} {minimum : Power} {state : State} {rest : List Token}
  {links : List (Link tables nesting)}

/-- An operand in front of links, and of what ends a chain, is read up to its end. -/
theorem StopsAt.afterOperand (hstop : StopsAt tables minimum rest) (hbinary : tables.OnlyBinary)
    (links : List (Link tables nesting)) : AfterOperand (linkTokens links ++ rest) := by
  cases links with
  | nil => exact fun token hhead => (hstop token hhead).imp_right And.left
  | cons link more =>
    rintro _ ⟨⟩
    exact .inr (hbinary _ _ link.1.registered)

/-- A right operand stops also before operators that are not tight enough for it. -/
theorem StopsAt.right {power : Power} (hstop : StopsAt tables minimum rest)
    (hpower : ¬ power < minimum) (hbinary : tables.OnlyBinary)
    (hlinks : ∀ link ∈ links.head?, link.1.power < power.tighter) :
    StopsAt tables power.tighter (linkTokens links ++ rest) := by
  cases links with
  | nil =>
    refine fun token hhead => (hstop token hhead).imp_right (And.imp_right fun h found hfound => ?_)
    have hlt := h found hfound
    have htighter := power.not_tighter_lt
    rw [Power.lt_iff] at *
    omega
  | cons link more =>
    rintro _ ⟨⟩
    refine .inr ⟨hbinary _ _ link.1.registered, fun found hfound => ?_⟩
    obtain rfl : link.1.power = found := Option.some.inj (link.1.registered.symm.trans hfound)
    exact hlinks link rfl

/-- In front of what ends a chain, folding is over. -/
theorem StopsAt.run_foldSteps (hstop : StopsAt tables minimum state.rest)
    (hbinary : tables.OnlyBinary) (operand : Rule Node) (left : Node) :
    (Rule.foldSteps tables operand minimum left).run state = .ok left state := by
  rw [Rule.foldSteps_eq, run_bind]
  simp only [operator?, Outcome.andThen_ok]
  cases hop : state.operator? tables with
  | none => rfl
  | some found =>
    obtain ⟨operator, power⟩ := found
    obtain ⟨token, more, hrest, rfl, hpower⟩ := State.operator?_eq_some hop
    rcases hstop token (by simp [hrest]) with hend | ⟨-, hlt⟩
    · have hkind := hbinary _ _ hpower
      rw [Kind.isBinaryOperator_of_isTerminator hend] at hkind
      cases hkind
    · simp only [if_pos (hlt power hpower)]
      rfl

/-- One turn: the operator at the cursor takes a right operand of tighter operators. -/
theorem run_foldSteps_operator {operator : Operator tables}
    (hrest : state.rest = operator.token :: rest) (hsome : rest ≠ [])
    (hpower : ¬ operator.power < minimum) (operand : Rule Node) (left : Node) :
    (Rule.foldSteps tables operand minimum left).run state =
      ((Rule.binary tables operand operator.power.tighter).step >>= fun right =>
        build (.binary operator.token.text left right) >>= fun node =>
          Rule.foldSteps tables operand minimum node).run (state.skip 1) := by
  rw [Rule.foldSteps_eq, run_bind_of_ok (run_operator? hrest operator.registered)]
  simp only [if_neg hpower]
  rw [run_bind_of_ok (run_advance hrest), run_bind_of_ok (run_more (by simpa [hrest] using hsome))]

/-! ## All links -/

/-- The rule for the operands where `nesting` expressions are open. -/
def chainOperand (tables : Tables) (nesting : Nat) : Rule Node :=
  .application (.expression tables (maxNesting - nesting))

/-- A grouped tree that takes the links can be extended by them, and that is the tree
which folding them into it gives. -/
def Folds (minimum : Power) (links : List (Link tables nesting)) : Prop :=
  ∀ left : OperatorTree tables nesting, left.Grouped → left.Takes links →
    ∃ tree : OperatorTree tables nesting, tree.Extends left links ∧
      ∀ (state : State) (rest : List Token), left.Fits → StopsAt tables minimum rest →
        state.nesting = nesting → state.rest = linkTokens links ++ rest →
        ((Rule.foldSteps tables (chainOperand tables nesting) minimum left.node).run state).Gives
          tree (state.skip (linkTokens links).length)

/-- A run of operators folds its links into its first operand. -/
theorem Folds.run_binary (h : Folds minimum links) (hbinary : tables.OnlyBinary)
    (first : Operand tables nesting) :
    ∃ tree : OperatorTree tables nesting, tree.Extends (.operand first) links ∧
      ∀ (state : State) (rest : List Token), StopsAt tables minimum rest →
        state.nesting = nesting → state.rest = first.tokens ++ (linkTokens links ++ rest) →
        ((Rule.binary tables (chainOperand tables nesting) minimum).step.run state).Gives tree
          (state.skip (first.tokens ++ linkTokens links).length) := by
  obtain ⟨tree, htree, hfold⟩ := h (.operand first) trivial (by simp [Takes, top?])
  refine ⟨tree, htree, fun state rest hstop hstate hrest => ?_⟩
  have hfirst : (chainOperand tables nesting).step.run state =
      .ok first.node (state.skip first.tokens.length) :=
    first.run_application hstate hrest (hstop.afterOperand hbinary links)
  rw [Rule.binary_step, run_bind_of_ok hfirst, List.length_append, ← State.skip_skip]
  exact hfold (state.skip first.tokens.length) rest (by simp [Fits, top?]) hstop hstate
    (by simp [hrest])

theorem folds (hbinary : tables.OnlyBinary) (minimum : Power) (links : List (Link tables nesting))
    (hlinks : ∀ link ∈ links, ¬ link.1.power < minimum) : Folds minimum links := by
  induction links using cut_induction generalizing minimum with
  | nil =>
    refine fun left hleft _ => ⟨left, .refl hleft, fun state rest hfits hstop _ hrest => ?_⟩
    rw [StopsAt.run_foldSteps (by rwa [hrest]) hbinary]
    exact ⟨fun _ => by simp, fun hdeep => absurd hfits hdeep⟩
  | cons operator single inside outside hinside houtside ihinside ihoutside =>
    intro left hleft htakes
    have hpower : ¬ operator.power < minimum := hlinks (operator, single) List.mem_cons_self
    obtain ⟨right, hright, hrunright⟩ :=
      (ihinside operator.power.tighter hinside).run_binary hbinary single
    have hjoined := hright.join hleft htakes hinside
    obtain ⟨tree, htree, hfold⟩ := ihoutside minimum (fun link h => hlinks link (by simp [h]))
      (.join operator left right) hjoined.grouped (by simpa [Takes, top?] using houtside)
    refine ⟨tree, hjoined.trans htree, fun state rest _ hstop hstate hrest => ?_⟩
    simp only [linkTokens_cons, linkTokens_append, List.cons_append, List.append_assoc] at hrest
    have hbehind : (state.skip 1).rest =
        single.tokens ++ (linkTokens inside ++ (linkTokens outside ++ rest)) := by simp [hrest]
    have hlength : (linkTokens ((operator, single) :: (inside ++ outside))).length =
        1 + (single.tokens ++ linkTokens inside).length + (linkTokens outside).length := by
      simp only [linkTokens_cons, linkTokens_append, List.length_cons, List.length_append]
      omega
    rw [run_foldSteps_operator hrest (by simp [single.tokens_ne_nil]) hpower, hlength,
      ← State.skip_skip, ← State.skip_skip]
    -- first the right operand, then the operator on top of it, then the links outside
    refine gives_bind (hrunright (state.skip 1) (linkTokens outside ++ rest)
      (hstop.right hpower hbinary houtside) hstate hbehind) (fits_right ∘ htree.fits) fun _ => ?_
    refine gives_bind gives_build htree.fits fun hfits => ?_
    exact hfold _ rest hfits hstop hstate
      (by rw [State.rest_skip, hbehind, ← List.append_assoc, List.drop_left])

end Chain

/-- With any tables that give powers to binary operators alone, a chain of operands in
front of what ends it has one grouped tree. Unless a limit is passed the chain is read
whole and gives the node of this tree, and no limit is passed where the tree is not too
deep. Operators of one power are grouped to the left, those of the power `primary` to
the right. -/
theorem binary_reads_grouped {tables : Tables} (hbinary : tables.OnlyBinary) {minimum : Power}
    (before : List Token) {rest : List Token} {nesting : Nat} (first : Operand tables nesting)
    {links : List (Link tables nesting)} (hlinks : ∀ link ∈ links, ¬ link.1.power < minimum)
    (hstop : StopsAt tables minimum rest) :
    let tokens := first.tokens ++ linkTokens links
    let outcome := ((Entry.binary minimum).step tables).run ⟨before, tokens ++ rest, nesting⟩
    ∃ tree : OperatorTree tables nesting,
      (∀ other : OperatorTree tables nesting,
        other.first = first ∧ other.links = links ∧ other.Grouped ↔ other = tree) ∧
      (outcome.WithinLimits → outcome = .ok tree.node ⟨tokens.reverse ++ before, rest, nesting⟩) ∧
      (outcome.WithinLimits ↔ tree.Fits) ∧
      ∀ power, (∀ link ∈ links, link.1.power = power) →
        tree = if power = .primary then rightmost first links else leftmost first links := by
  intro tokens outcome
  obtain ⟨tree, htree, hread⟩ := (folds hbinary minimum links hlinks).run_binary hbinary first
  have hunique : ∀ other : OperatorTree tables nesting,
      other.first = first ∧ other.links = links ∧ other.Grouped ↔ other = tree := by
    refine fun other => ⟨fun ⟨hfirst, hother, hgrouped⟩ => ?_, ?_⟩
    · exact hgrouped.eq_of_links htree.grouped (hfirst.trans htree.first.symm)
        (hother.trans htree.links.symm)
    · rintro rfl
      exact ⟨htree.first, htree.links, htree.grouped⟩
  have hgives : outcome.Gives tree ⟨tokens.reverse ++ before, rest, nesting⟩ := by
    rw [← State.skip_append]
    exact hread ⟨before, tokens ++ rest, nesting⟩ rest hstop rfl (List.append_assoc _ _ _)
  refine ⟨tree, hunique, hgives.ok ∘ hgives.withinLimits_iff.mp, hgives.withinLimits_iff,
    fun power hpower => ?_⟩
  split
  · next hprimary =>
    obtain ⟨hgrouped, hfirst, hall⟩ :=
      grouped_rightmost first links fun link h => (hpower link h).trans hprimary
    exact ((hunique _).mp ⟨hfirst, hall, hgrouped⟩).symm
  · next hprimary =>
    obtain ⟨hgrouped, hfirst, hall⟩ := grouped_leftmost first hprimary links hpower
    exact ((hunique _).mp ⟨hfirst, hall, hgrouped⟩).symm

/-- With `+` as tight as can be, `1 + 2 + 3 * 4` in parentheses is `(1 + (2 + 3)) * 4`. -/
theorem binary_reads_grouped_plus :
    let tables := Tables.standard.setPower .plus .primary
    let number (text : String) (h : Kind.ofText text = .number) : Operand tables 1 :=
      .number tables 1 ⟨text, 1⟩ h
    let one := number "1" (by decide)
    let two := number "2" (by decide)
    let three := number "3" (by decide)
    let four := number "4" (by decide)
    let plus : Operator tables := ⟨⟨"+", 1⟩, .primary, by decide⟩
    let star : Operator tables := ⟨⟨"*", 1⟩, .multiplicative, by decide⟩
    let links : List (Link tables 1) := [(plus, two), (plus, three), (star, four)]
    let tree : OperatorTree tables 1 :=
      .join star (.join plus (.operand one) (.join plus (.operand two) (.operand three)))
        (.operand four)
    let tokens := one.tokens ++ linkTokens links
    let outcome := ((Entry.binary .additive).step tables).run
      ⟨[⟨"(", 1⟩], tokens ++ [⟨")", 1⟩], 1⟩
    tables.OnlyBinary ∧ (∀ link ∈ links, ¬ link.1.power < .additive) ∧
      StopsAt tables .additive [⟨")", 1⟩] ∧
      (tree.first = one ∧ tree.links = links ∧ tree.Grouped) ∧ outcome.WithinLimits ∧
      outcome = .ok tree.node ⟨tokens.reverse ++ [⟨"(", 1⟩], [⟨")", 1⟩], 1⟩ := by
  intro tables number one two three four plus star links tree tokens outcome
  have hbinary : tables.OnlyBinary := by
    intro kind power
    cases kind <;> revert power <;> decide
  have hlinks : ∀ link ∈ links, ¬ link.1.power < .additive := by decide
  have hstop : StopsAt tables .additive [⟨")", 1⟩] := by
    rintro _ ⟨⟩
    exact .inl (by decide)
  have htree : tree.first = one ∧ tree.links = links ∧ tree.Grouped := by
    refine ⟨rfl, rfl, ?_⟩
    simp only [tree, Grouped, top?]
    decide
  have hfits : tree.Fits := fun _ _ => by decide
  obtain ⟨tree', hunique, hrun, hlimits, -⟩ :=
    binary_reads_grouped hbinary [⟨"(", 1⟩] one hlinks hstop
  obtain rfl := (hunique tree).mp htree
  exact ⟨hbinary, hlinks, hstop, htree, hlimits.mpr hfits, hrun (hlimits.mpr hfits)⟩

end MlFront
