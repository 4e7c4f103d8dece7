import Mathlib.Data.List.TakeWhile
import MlFront.Proofs.Parser.Local

/-!
# The parser has no lookahead and no memory

Every rule, with any tables, is local: what it does depends on the nesting and on
the tokens from the cursor up to the one where it stops. The loops are handled by
induction on the number of tokens left. `rules_local` compares two runs.
-/

namespace MlFront

open ParseM

namespace Rule

/-- The rule is local from every state. -/
def Local {α : Type} (rule : Rule α) : Prop :=
  ∀ state, rule.step.LocalFrom state

variable {inner : Rule Node}

/-! ## Primaries and applications -/

theorem local_grouping (h : inner.Local) : (grouping inner).Local := by
  intro state
  refine (localFrom_expect "(").bind fun _ _ _ => ?_
  refine (h _).bind fun _ after _ => ?_
  refine (localFrom_expectOr .expectedClosingParen after.line fun other h => ?_).bind
    fun _ _ _ => localFrom_pure _
  rw [State.fault, h.2.1]

theorem local_primary (h : inner.Local) : (primary inner).Local := by
  intro state
  rw [primary_step]
  refine localFrom_current?.bind fun found after hrun => ?_
  cases hrun
  cases hrest : state.rest with
  | nil => exact localFrom_fail _
  | cons token rest =>
    have hadvance : advance.LocalFrom state := localFrom_advance (by simp [hrest])
    simp only [List.head?_cons]
    split
    · exact hadvance.bind fun _ _ _ => localFrom_pure _
    · exact hadvance.bind fun _ _ _ => localFrom_pure _
    · exact hadvance.bind fun _ _ _ => localFrom_pure _
    · exact local_grouping h state
    · split
      · exact hadvance.bind fun _ _ _ => localFrom_pure _
      · exact localFrom_fail _

theorem local_argumentSteps {argument : Rule Node} (h : argument.Local) (done : List Node)
    (state : State) : (argumentSteps argument done).LocalFrom state := by
  induction hn : state.rest.length using Nat.strongRecOn generalizing done state with
  | _ n ih =>
    rw [argumentSteps_eq]
    refine localFrom_current?.bind fun found after hrun => ?_
    cases hrun
    split
    · exact localFrom_pure _
    · split
      · exact localFrom_pure _
      · refine (h state).bind fun node after hrun => ?_
        exact ih _ (hn ▸ argument.shortens state node after hrun) _ after rfl

theorem local_applied (callee : Node) (arguments : List Node) (state : State) :
    (applied callee arguments).LocalFrom state := by
  cases arguments with
  | nil => exact localFrom_pure _
  | cons => exact localFrom_build _

theorem local_application (h : inner.Local) : (application inner).Local := by
  intro state
  rw [application_step]
  refine (local_primary h state).bind fun callee after _ => ?_
  refine (local_argumentSteps (local_primary h) [] after).bind fun list after _ => ?_
  exact local_applied callee list after

/-! ## Runs of operators -/

theorem local_foldSteps {tables : Tables} {operand : Rule Node} {bound : Nat}
    (hright : ∀ power state, state.rest.length < bound →
      (binary tables operand power).step.LocalFrom state)
    (minimum : Power) (left : Node) {state : State} (hbound : state.rest.length ≤ bound) :
    (foldSteps tables operand minimum left).LocalFrom state := by
  induction hn : state.rest.length using Nat.strongRecOn generalizing left state with
  | _ n ih =>
    rw [foldSteps_eq]
    refine (localFrom_operator? tables).bind fun found after hrun => ?_
    cases hrun
    split
    · exact localFrom_pure _
    · next operator power hop =>
      obtain ⟨token, rest, hrest, -, -⟩ := State.operator?_eq_some hop
      split
      · exact localFrom_pure _
      · refine (localFrom_advance (by simp [hrest])).bind fun _ after hrun => ?_
        cases hrun
        have hlt : state.next.rest.length < state.rest.length := State.length_rest_next_lt hop
        refine (localFrom_more _).bind fun _ after hrun => ?_
        obtain rfl := eq_of_more hrun
        refine (hright power.tighter state.next (by omega)).bind fun node after hrun => ?_
        have hshort := (binary tables operand power.tighter).shortens _ node after hrun
        refine (localFrom_build _).bind fun node after' hrun => ?_
        obtain rfl := eq_of_build hrun
        exact ih _ (by omega) node (by omega) rfl

theorem local_binary {tables : Tables} {operand : Rule Node} (h : operand.Local)
    (minimum : Power) : (binary tables operand minimum).Local := by
  intro state
  induction hn : state.rest.length using Nat.strongRecOn generalizing minimum state with
  | _ n ih =>
    rw [binary_step]
    refine (h state).bind fun left after hrun => ?_
    have hlt := operand.shortens state left after hrun
    exact local_foldSteps (fun power state hlt' => ih _ (by omega) power state rfl) minimum left
      (Nat.le_refl _)

/-! ## Forms -/

theorem local_letIn (h : inner.Local) : (letIn inner).Local := by
  intro state
  refine localFrom_currentLine.bind fun line _ _ => ?_
  refine (localFrom_expect "let").bind fun _ _ _ => ?_
  refine (localFrom_nameOr .expectedLetName line).bind fun _ _ _ => ?_
  refine (localFrom_expectOr .expectedLetEquals line fun _ _ => rfl).bind fun _ _ _ => ?_
  refine (h _).bind fun _ _ _ => ?_
  refine (localFrom_expectOr .expectedLetIn line fun _ _ => rfl).bind fun _ _ _ => ?_
  exact localFrom_pure _

theorem local_ifThenElse (h : inner.Local) : (ifThenElse inner).Local := by
  intro state
  refine localFrom_currentLine.bind fun line _ _ => ?_
  refine (localFrom_expect "if").bind fun _ _ _ => ?_
  refine (h _).bind fun _ _ _ => ?_
  refine (localFrom_expectOr .expectedThen line fun _ _ => rfl).bind fun _ _ _ => ?_
  refine (h _).bind fun _ _ _ => ?_
  refine (localFrom_expectOr .expectedElse line fun _ _ => rfl).bind fun _ _ _ => ?_
  exact localFrom_pure _

theorem local_function : function.Local := by
  intro state
  refine localFrom_currentLine.bind fun line _ _ => ?_
  refine (localFrom_expect "fn").bind fun _ _ _ => ?_
  refine localFrom_parameters.bind fun names _ _ => ?_
  refine (localFrom_arrow names line).bind fun _ _ _ => ?_
  exact localFrom_pure _

theorem local_form (h : inner.Local) (form : Form) : (form.rule inner).Local := by
  cases form with
  | letIn => exact local_letIn h
  | ifThenElse => exact local_ifThenElse h
  | function => exact local_function

/-! ## Expressions -/

theorem local_closeAll (forms : List OpenForm) (node : Node) (state : State) :
    (closeAll forms node).LocalFrom state := by
  induction forms generalizing node state with
  | nil => exact localFrom_pure _
  | cons form more ih => exact (localFrom_build _).bind fun node after _ => ih node after

theorem local_chainSteps {tables : Tables} {last : Rule Node} (h : inner.Local) (hlast : last.Local)
    (waiting : List OpenForm) (state : State) :
    (chainSteps tables inner last waiting).LocalFrom state := by
  induction hn : state.rest.length using Nat.strongRecOn generalizing waiting state with
  | _ n ih =>
    rw [chainSteps_eq]
    refine localFrom_current?.bind fun found after hrun => ?_
    cases hrun
    split
    · exact localFrom_fail _
    · split
      · exact (hlast state).bind fun node after _ => local_closeAll waiting node after
      · next form _ =>
        refine (local_form h form state).bind fun opened after hrun => ?_
        exact ih _ (hn ▸ (form.rule inner).shortens state opened after hrun) _ after rfl

theorem local_expression (tables : Tables) (levels : Nat) : (expression tables levels).Local := by
  induction levels with
  | zero => exact fun state => LocalFrom.nested (localFrom_fail _)
  | succ levels ih =>
    intro state
    rw [expression_succ]
    exact LocalFrom.nested (local_chainSteps ih (local_binary (local_application ih) _) [] _)

theorem local_entry (tables : Tables) (levels : Nat) (entry : Entry) :
    (entry.rule tables levels).Local := by
  have hinner := local_expression tables levels
  cases entry with
  | expression => exact hinner
  | binary minimum => exact local_binary (local_application hinner) minimum
  | application => exact local_application hinner
  | primary => exact local_primary hinner
  | grouping => exact local_grouping hinner

end Rule

/-! ## Two runs -/

theorem Entry.localFrom_step (tables : Tables) (entry : Entry) (state : State) :
    (entry.step tables).LocalFrom state := by
  obtain ⟨effect, hle, h⟩ := Rule.local_entry tables state.levelsLeft entry state
  refine ⟨effect, hle, fun other hagrees => ?_⟩
  have hlevels : other.levelsLeft = state.levelsLeft := by
    rw [State.levelsLeft, State.levelsLeft, hagrees.1]
  simp only [step, hlevels]
  exact h other hagrees

theorem Form.localFrom_step (tables : Tables) (form : Form) (state : State) :
    (form.step tables).LocalFrom state := by
  obtain ⟨effect, hle, h⟩ :=
    Rule.local_form (Rule.local_expression tables state.levelsLeft) form state
  refine ⟨effect, hle, fun other hagrees => ?_⟩
  have hlevels : other.levelsLeft = state.levelsLeft := by
    rw [State.levelsLeft, State.levelsLeft, hagrees.1]
  simp only [step, hlevels]
  exact h other hagrees

/-- The state that a step ends in, whether it succeeds or fails. -/
def Outcome.after {α : Type} : Outcome α → State
  | ok _ after => after
  | error _ after => after

/-- The tokens ahead of `t` are those ahead of `s`, up to and including the one
at which `stop` stands. If `stop` is at the end of the tokens, so are they. -/
def State.SameAhead (s t stop : State) : Prop :=
  t.rest.take (stop.index - s.index + 1) = s.rest.take (stop.index - s.index + 1)

instance (s t stop : State) : Decidable (s.SameAhead t stop) :=
  inferInstanceAs (Decidable (_ = _))

/-- The cursor has moved as far from `t` to `b` as from `s` to `a`, over the same
tokens as before, and it stands on the same line with the same nesting. -/
structure State.SameMove (s t a b : State) : Prop where
  tokens : a.tokens = s.tokens ∧ b.tokens = t.tokens
  index : s.index ≤ a.index ∧ b.index = t.index + (a.index - s.index)
  nesting : b.nesting = a.nesting
  line : b.line = a.line

/-- The second outcome, reached from `t`, repeats the first one, reached from `s`:
it has the same value, or an error of the same cause, line and context whose
index into the tokens is as far ahead of the one as of the other. -/
def Outcome.Repeats {α : Type} (source : String) (s t : State) : Outcome α → Outcome α → Prop
  | ok value a, ok value' b => value' = value ∧ s.SameMove t a b
  | error fault a, error fault' b =>
    (fault'.inSource source).cause = (fault.inSource source).cause ∧
      (fault'.inSource source).position.line = (fault.inSource source).position.line ∧
      (fault'.inSource source).context = (fault.inSource source).context ∧
      (fault'.inSource source).position.tokenIndex + s.index =
        (fault.inSource source).position.tokenIndex + t.index ∧ s.SameMove t a b
  | _, _ => False

section Repeats

variable {α : Type} {s t : State}

theorem Effect.index_after {effect : Effect α} (h : effect.taken ≤ s.rest.length) :
    (effect.after s).index = s.index + effect.taken :=
  State.index_skip h

theorem Effect.sameMove {effect : Effect α} (hle : effect.taken ≤ s.rest.length)
    (h : s.Agrees effect.taken t) : s.SameMove t (effect.after s) (effect.after t) := by
  have hline := (State.Agrees.skip (b := 0) h).2.1
  refine ⟨⟨s.tokens_skip _, t.tokens_skip _⟩, ?_, rfl, hline⟩
  rw [index_after hle, index_after (h.le_length hle)]
  omega

theorem ParseM.LocalFrom.repeats {step : ParseM α} (source : String) (h : step.LocalFrom s)
    (hrest : s.rest ≠ []) (hnesting : t.nesting = s.nesting)
    (hahead : s.SameAhead t (step.run s).after) :
    (step.run s).Repeats source s t (step.run t) := by
  obtain ⟨effect, hle, hrun⟩ := h
  have hs := hrun s (.refl _ _)
  have htaken : (step.run s).after.index - s.index = effect.taken := by
    have hafter : (step.run s).after = effect.after s := by
      rw [hs, Effect.outcome]
      cases effect.result <;> rfl
    rw [hafter, Effect.index_after hle]
    omega
  have hagrees : s.Agrees effect.taken t := by
    rw [State.SameAhead, htaken] at hahead
    exact State.agrees_of_rest hrest hnesting hahead
  have hmove := Effect.sameMove hle hagrees
  rw [hs, hrun t hagrees, Effect.outcome, Effect.outcome]
  cases effect.result with
  | ok value => exact ⟨rfl, hmove⟩
  | error fault =>
    refine ⟨rfl, rfl, rfl, ?_, hmove⟩
    have hindex := hmove.index
    show (effect.after t).index + s.index = (effect.after s).index + t.index
    omega

/-- A local step fails where it stands, and it keeps the tokens. -/
theorem ParseM.LocalFrom.of_error {step : ParseM α} {fault : Fault} {after : State}
    (h : step.LocalFrom s) (hrun : step.run s = .error fault after) :
    fault.position.tokenIndex = after.index ∧ after.tokens = s.tokens := by
  obtain ⟨effect, -, h⟩ := h
  rw [h s (.refl _ _), Effect.outcome] at hrun
  cases hresult : effect.result with
  | ok value => simp [hresult] at hrun
  | error found =>
    simp only [hresult, Outcome.error.injEq] at hrun
    obtain ⟨rfl, rfl⟩ := hrun
    exact ⟨rfl, s.tokens_skip _⟩

theorem parse_eq_error_iff {tokens : List Token} {source : String} {error : Error} :
    parse tokens source = .error error ↔ tokens ≠ [] ∧ ∃ fault after,
      (Entry.expression.step .standard).run (.start tokens) = .error fault after ∧
        error = fault.inSource source := by
  unfold parse parseTokens
  cases tokens with
  | nil => simp [Except.mapError]
  | cons token more =>
    cases (Entry.expression.step .standard).run (.start (token :: more)) with
    | ok node after => simp [Except.mapError]
    | error fault after => simp [Except.mapError, eq_comm]

end Repeats

/-- An error only depends on the tokens up to the one that it is reported at. -/
theorem parse_eq_error_of_take {tokens others : List Token} {source : String} {error : Error}
    (h : parse tokens source = .error error)
    (hothers : others.take (error.position.tokenIndex + 1) =
      tokens.take (error.position.tokenIndex + 1)) (source' : String) :
    parse others source' =
      .error ⟨error.cause, error.position, lineContext source' error.position.line⟩ := by
  obtain ⟨hsome, fault, after, hrun, rfl⟩ := parse_eq_error_iff.mp h
  have hlocal := Entry.expression.localFrom_step .standard (.start tokens)
  have hahead : (State.start tokens).SameAhead (.start others) after := by
    have hmoved : after.index - (State.start tokens).index =
        (fault.inSource source).position.tokenIndex := (hlocal.of_error hrun).1.symm
    rw [State.SameAhead, hmoved]
    exact hothers
  have hrepeats := hlocal.repeats source (t := .start others) hsome rfl (by rwa [hrun])
  have hsome' : others ≠ [] := by
    rintro rfl
    simp [hsome] at hothers
  cases hrun' : (Entry.expression.step .standard).run (.start others) with
  | ok node after' => simp [hrun, hrun', Outcome.Repeats] at hrepeats
  | error fault' after' =>
    rw [hrun, hrun'] at hrepeats
    obtain ⟨hcause, hline, -, hindex, -⟩ := hrepeats
    refine parse_eq_error_iff.mpr ⟨hsome', fault', after', hrun', ?_⟩
    have hposition : fault'.position = fault.position := congrArg₂ Position.mk hline hindex
    simp only [Fault.inSource] at hcause ⊢
    rw [hcause, hposition]

/-- What a rule does depends on nothing but the nesting and the tokens from the
cursor up to the one at which the rule stops, whatever the tables are. So an
error that is reported inside of the tokens comes back however they go on. -/
theorem rules_repeat :
    (∀ (tables : Tables) (source : String) (s t : State), s.rest ≠ [] → t.nesting = s.nesting →
      (∀ entry : Entry, s.SameAhead t ((entry.step tables).run s).after →
        ((entry.step tables).run s).Repeats source s t ((entry.step tables).run t)) ∧
      (∀ form : Form, s.SameAhead t ((form.step tables).run s).after →
        ((form.step tables).run s).Repeats source s t ((form.step tables).run t))) ∧
    (∀ (tokens : List Token) (source : String) (error : Error),
      parse tokens source = .error error → error.position.tokenIndex < tokens.length →
      ∀ (suffix : List Token) (source' : String),
        parse (tokens.take (error.position.tokenIndex + 1) ++ suffix) source' =
          .error ⟨error.cause, error.position, lineContext source' error.position.line⟩) := by
  refine ⟨fun tables source s t hrest hnesting => ⟨fun entry hahead => ?_, fun form hahead => ?_⟩,
    fun tokens source error herror hinside suffix source' => ?_⟩
  · exact (entry.localFrom_step tables s).repeats source hrest hnesting hahead
  · exact (form.localFrom_step tables s).repeats source hrest hnesting hahead
  · refine parse_eq_error_of_take herror ?_ source'
    rw [List.take_append_of_le_length (by rw [List.length_take]; omega), List.take_take,
      Nat.min_self]

/-- `let x + 1` fails at the `+`, at the start of the tokens and behind a `(`. -/
theorem rules_repeat_let :
    let s : State := .start [⟨"let", 1⟩, ⟨"x", 1⟩, ⟨"+", 2⟩, ⟨"1", 2⟩]
    let t : State := ⟨[⟨"(", 1⟩], [⟨"let", 1⟩, ⟨"x", 1⟩, ⟨"+", 2⟩, ⟨")", 3⟩], 0⟩
    let error : Error := ⟨.expectedLetEquals, ⟨1, 2⟩, "let x"⟩
    (s.rest ≠ [] ∧ t.nesting = s.nesting ∧
      s.SameAhead t ((Entry.expression.step .standard).run s).after ∧
      s.SameAhead t ((Form.letIn.step .standard).run s).after ∧
      ((Entry.expression.step .standard).run s).Repeats "let x\n+ 1" s t
        ((Entry.expression.step .standard).run t) ∧
      ((Form.letIn.step .standard).run s).Repeats "let x\n+ 1" s t
        ((Form.letIn.step .standard).run t)) ∧
    parse s.rest "let x\n+ 1" = .error error ∧ error.position.tokenIndex < s.rest.length ∧
      parse (s.rest.take 3 ++ [⟨"=", 2⟩]) "(" = .error { error with context := "(" } := by
  intro s t error
  have hrest : s.rest ≠ [] := by decide
  have hentry : s.SameAhead t ((Entry.expression.step .standard).run s).after := by decide +kernel
  have hform : s.SameAhead t ((Form.letIn.step .standard).run s).after := by decide +kernel
  have herror : parse s.rest "let x\n+ 1" = .error error := by decide +kernel
  have hinside : error.position.tokenIndex < s.rest.length := by decide
  have hrepeat := rules_repeat.1 .standard "let x\n+ 1" s t hrest rfl
  have hparse := rules_repeat.2 s.rest "let x\n+ 1" error herror hinside [⟨"=", 2⟩] "("
  exact ⟨⟨hrest, rfl, hentry, hform, hrepeat.1 .expression hentry, hrepeat.2 .letIn hform⟩, herror,
    hinside, hparse.trans (by decide +kernel)⟩

end MlFront
