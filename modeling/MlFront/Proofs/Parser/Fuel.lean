import MlFront.Proofs.Grammar.Complete
import MlFront.Proofs.Parser.Call

/-!
# The nesting of calls is bounded

Fuel for 1801 nested calls suffices for every program, however long it is. Between one
expression and the next that is opened inside of it there are at most eight other calls
(`Call.reach`): a run of operators calls itself only for tighter operators, and there
are four powers. `Call.fuelFor` adds this up over the levels that are left.
`run_endsAs` says that a rule with so much fuel comes to the end that the rule of the
parser comes to.
-/

namespace MlFront

open Grammar ParseM

namespace FuelM

variable {α β : Type} {s : State}

/-- From the state, the step comes to the end that the other one comes to. -/
def EndsAs (f : FuelM α) (g : ParseM α) (state : State) : Prop :=
  f.run state = some (g.run state)

theorem endsAs_lift (g : ParseM α) : EndsAs (liftM g) g s := rfl

theorem endsAs_pure (value : α) : EndsAs (pure value) (pure value) s := rfl

theorem EndsAs.bind {f : FuelM α} {g : ParseM α} {f' : α → FuelM β} {g' : α → ParseM β}
    (h : f.EndsAs g s)
    (hnext : ∀ value after, g.run s = .ok value after → (f' value).EndsAs (g' value) after) :
    (f >>= f').EndsAs (g >>= g') s := by
  unfold EndsAs at h hnext ⊢
  simp only [Bind.bind, h]
  cases hrun : g.run s with
  | ok value after => exact hnext value after hrun
  | error fault after => rfl

theorem bind_assoc {γ : Type} (f : FuelM α) (g : α → FuelM β) (h : β → FuelM γ) :
    f >>= g >>= h = f >>= fun value => g value >>= h := by
  simp only [Bind.bind, FuelM.mk.injEq]
  funext state
  rcases f.run state with _ | ⟨value, after⟩ | ⟨fault, after⟩ <;> rfl

theorem EndsAs.closing {f : FuelM α} {g : ParseM α} (h : f.EndsAs g s) :
    (FuelM.closing f).EndsAs (ParseM.closing g) s := by
  unfold EndsAs at h ⊢
  simp only [FuelM.closing, ParseM.closing, h]
  cases g.run s <;> rfl

/-- What a loop does with the value of a turn that started with `bound` tokens left. -/
def again (turn : β → FuelM (β ⊕ α)) (bound : Nat) : β ⊕ α → FuelM α
  | .inl value =>
    ⟨fun after => if after.rest.length < bound then (loop turn value).run after else none⟩
  | .inr value => pure value

/-- A loop is one turn, and the loop again or its end. -/
theorem EndsAs.loop {turn : β → FuelM (β ⊕ α)} {value : β} {g : ParseM α}
    (h : (turn value >>= again turn s.rest.length).EndsAs g s) :
    (FuelM.loop turn value).EndsAs g s := by
  refine Eq.trans ?_ h
  show loopFrom turn value s = _
  rw [loopFrom]
  simp only [Bind.bind]
  rcases (turn value).run s with _ | ⟨_ | _, after⟩ | ⟨fault, after⟩ <;> rfl

theorem EndsAs.again {turn : β → FuelM (β ⊕ α)} {value : β} {g : ParseM α} {bound : Nat}
    (hlt : s.rest.length < bound) (h : (FuelM.loop turn value).EndsAs g s) :
    (pure (.inl value) >>= FuelM.again turn bound).EndsAs g s :=
  (if_pos hlt).trans h

/-- The last step of a turn that ends the loop. -/
theorem EndsAs.last {turn : β → FuelM (β ⊕ α)} {f : FuelM α} {g : ParseM α} {bound : Nat}
    (h : f.EndsAs g s) :
    (f >>= fun value => pure (.inr value) >>= FuelM.again turn bound).EndsAs g s := by
  unfold EndsAs at h ⊢
  simp only [Bind.bind, h]
  cases g.run s <;> rfl

end FuelM

/-! ## Rules and their calls -/

theorem Outcome.Reads.levelsLeft {α : Type} {outcome : Outcome α} {state after : State}
    {P : List Token → α → List Token → Prop} {value : α} (h : outcome.Reads state P)
    (hrun : outcome = .ok value after) : after.levelsLeft = state.levelsLeft := by
  obtain ⟨taken, -, rfl, -⟩ := h value after hrun
  rfl

namespace Call

open FuelM

/-- The step that a call stands for, when `levels` more expressions may be opened. -/
def step (levels : Nat) : {α : Type} → Call α → ParseM α
  | _, expression => (Rule.expression .standard levels).step
  | _, chain => chainRun levels []
  | _, binary minimum => (Rule.binary .standard (operandRule levels) minimum).step
  | _, application => (operandRule levels).step
  | _, primary => (Rule.primary (.expression .standard levels)).step
  | _, grouping => (Rule.grouping (.expression .standard levels)).step
  | _, opening form => (form.rule (.expression .standard levels)).step

/-- How many calls there may be from a call down to that of the next expression. -/
def reach : {α : Type} → Call α → Nat
  | _, expression => 0
  | _, grouping | _, opening _ => 1
  | _, primary => 2
  | _, application => 3
  | _, binary minimum => 7 - minimum.rank
  | _, chain => 8

/-- The fuel for a call, when `levels` more expressions may be opened. -/
def fuelFor {α : Type} (levels : Nat) (rule : Call α) : Nat :=
  9 * levels + 1 + rule.reach

theorem reads_step {α : Type} (levels : Nat) (rule : Call α) (state : State) :
    ((rule.step levels).run state).Reads state fun _ _ _ => True := by
  have hinner : ReadsExpressions levels (.expression .standard levels) := fun state =>
    (expression_reads levels state).mono fun _ _ _ h => h.1
  cases rule with
  | expression => exact (expression_reads levels state).mono fun _ _ _ _ => trivial
  | chain => exact (chainSteps_reads hinner [] state).mono fun _ _ _ _ => trivial
  | binary minimum => exact (binary_reads hinner minimum state).mono fun _ _ _ _ => trivial
  | application => exact (application_reads hinner state).mono fun _ _ _ _ => trivial
  | primary => exact (primary_reads hinner state).mono fun _ _ _ _ => trivial
  | grouping => exact (grouping_reads hinner state).mono fun _ _ _ _ => trivial
  | opening form => exact (form_reads hinner form state).mono fun _ _ _ _ => trivial

section Bodies

variable {call : {β : Type} → Call β → FuelM β} {levels : Nat} {s : State} {α β : Type}

/-- With `levels` levels left, `call` runs the rule to its end. -/
def Runs (call : {β : Type} → Call β → FuelM β) (levels : Nat) {α : Type} (rule : Call α) : Prop :=
  ∀ state, state.levelsLeft = levels → (call rule).EndsAs (rule.step levels) state

/-- A call is followed by a step with the same levels left. -/
theorem Runs.bind {rule : Call α} {f' : α → FuelM β} {g' : α → ParseM β}
    (h : Runs call levels rule) (hs : s.levelsLeft = levels)
    (hnext : ∀ value after, after.levelsLeft = levels → (f' value).EndsAs (g' value) after) :
    (call rule >>= f').EndsAs (rule.step levels >>= g') s :=
  EndsAs.bind (h s hs) fun value after hrun =>
    hnext value after (((reads_step levels rule s).levelsLeft hrun).trans hs)

/-- A step that reads tokens leaves as many levels. -/
theorem endsAs_bind_reads {step : ParseM α} {f' : α → FuelM β} {g' : α → ParseM β}
    {P : List Token → α → List Token → Prop} (hreads : (step.run s).Reads s P)
    (hs : s.levelsLeft = levels)
    (hnext : ∀ value after, after.levelsLeft = levels → (f' value).EndsAs (g' value) after) :
    (liftM step >>= f').EndsAs (step >>= g') s :=
  EndsAs.bind (endsAs_lift step) fun value after hrun =>
    hnext value after ((hreads.levelsLeft hrun).trans hs)

theorem endsAs_grouping (hexpression : Runs call levels .expression) (hs : s.levelsLeft = levels) :
    (Call.grouping.body .standard call).EndsAs (Call.grouping.step levels) s := by
  refine endsAs_bind_reads reads_expect hs fun _ s hs => ?_
  refine hexpression.bind hs fun node s hs => ?_
  exact endsAs_bind_reads reads_expectOr hs fun _ s _ => endsAs_pure node

theorem endsAs_primary (hgrouping : Runs call levels .grouping) (hs : s.levelsLeft = levels) :
    (Call.primary.body .standard call).EndsAs (Call.primary.step levels) s := by
  rw [step, Rule.primary_step]
  refine EndsAs.bind (endsAs_lift current?) fun found after hrun => ?_
  cases hrun
  cases s.rest.head? with
  | none => exact endsAs_lift _
  | some token =>
    simp only
    generalize token.kind = kind
    cases kind with
    | number | kwTrue | kwFalse =>
      exact EndsAs.bind (endsAs_lift advance) fun _ _ _ => endsAs_pure _
    | openParen => exact hgrouping s hs
    | _ =>
      simp only
      split
      · exact EndsAs.bind (endsAs_lift advance) fun _ _ _ => endsAs_pure _
      · exact endsAs_lift _

theorem endsAs_arguments (hprimary : Runs call levels .primary) (done : List Node)
    (hs : s.levelsLeft = levels) :
    (FuelM.loop (argumentTurn call) done).EndsAs
      (Rule.argumentSteps (.primary (.expression .standard levels)) done) s := by
  induction hn : s.rest.length using Nat.strongRecOn generalizing done s with
  | _ n ih =>
    refine EndsAs.loop ?_
    rw [Rule.argumentSteps_eq, argumentTurn, FuelM.bind_assoc]
    refine EndsAs.bind (endsAs_lift current?) fun found after hrun => ?_
    cases hrun
    cases s.rest.head? with
    | none => exact endsAs_pure _
    | some token =>
      simp only
      split
      · exact endsAs_pure _
      · rw [FuelM.bind_assoc]
        refine EndsAs.bind (hprimary s hs) fun node after hrun => ?_
        have hlt := (Rule.primary (.expression .standard levels)).shortens s node after hrun
        have hafter := ((reads_step levels .primary s).levelsLeft hrun).trans hs
        exact EndsAs.again hlt (ih _ (hn ▸ hlt) (node :: done) hafter rfl)

theorem endsAs_application (hprimary : Runs call levels .primary) (hs : s.levelsLeft = levels) :
    (Call.application.body .standard call).EndsAs (Call.application.step levels) s := by
  rw [step, operandRule, Rule.application_step]
  refine hprimary.bind hs fun callee s hs => ?_
  refine EndsAs.bind (endsAs_arguments hprimary [] hs) fun list after _ => ?_
  exact endsAs_lift _

/-- The right operand of an operator is a run of tighter ones. -/
theorem endsAs_fold {minimum : Power}
    (hright : ∀ kind power, Tables.standardPower kind = some power → ¬ power < minimum →
      Runs call levels (.binary power.tighter))
    (left : Node) (hs : s.levelsLeft = levels) :
    (FuelM.loop (foldTurn .standard call minimum) left).EndsAs
      (Rule.foldSteps .standard (operandRule levels) minimum left) s := by
  induction hn : s.rest.length using Nat.strongRecOn generalizing left s with
  | _ n ih =>
    refine EndsAs.loop ?_
    rw [Rule.foldSteps_eq, foldTurn, FuelM.bind_assoc]
    refine EndsAs.bind (endsAs_lift (ParseM.operator? .standard)) fun found after hrun => ?_
    cases hrun
    cases hop : s.operator? .standard with
    | none => exact endsAs_pure _
    | some found =>
      obtain ⟨operator, power⟩ := found
      obtain ⟨token, rest, hrest, rfl, hpower⟩ := State.operator?_eq_some hop
      simp only
      split
      · exact endsAs_pure _
      · next hmin =>
        simp only [FuelM.bind_assoc]
        refine EndsAs.bind (endsAs_lift advance) fun _ after hrun => ?_
        cases hrun
        have hnext : s.next.levelsLeft = levels := by rw [← hs, State.next_eq_skip]; rfl
        have hlt := State.length_rest_next_lt hop
        refine EndsAs.bind (endsAs_lift (more _)) fun _ after hrun => ?_
        obtain rfl := eq_of_more hrun
        refine EndsAs.bind (hright token.kind power hpower hmin _ hnext) fun right after hrun => ?_
        have hshort :=
          (Rule.binary .standard (operandRule levels) power.tighter).shortens _ right after hrun
        have hafter := ((reads_step levels (.binary power.tighter) _).levelsLeft hrun).trans hnext
        refine EndsAs.bind (endsAs_lift (build _)) fun node after hrun => ?_
        obtain rfl := eq_of_build hrun
        exact EndsAs.again (by omega) (ih _ (by omega) node hafter rfl)

theorem endsAs_binary {minimum : Power} (happlication : Runs call levels .application)
    (hright : ∀ kind power, Tables.standardPower kind = some power → ¬ power < minimum →
      Runs call levels (.binary power.tighter)) (hs : s.levelsLeft = levels) :
    ((Call.binary minimum).body .standard call).EndsAs ((Call.binary minimum).step levels) s := by
  rw [step, Rule.binary_step]
  exact happlication.bind hs fun left s hs => endsAs_fold hright left hs

theorem endsAs_opening (hexpression : Runs call levels .expression) (form : Form)
    (hs : s.levelsLeft = levels) :
    ((opening form).body .standard call).EndsAs ((opening form).step levels) s := by
  cases form with
  | letIn =>
    refine endsAs_bind_reads reads_currentLine hs fun line s hs => ?_
    refine endsAs_bind_reads reads_expect hs fun _ s hs => ?_
    refine endsAs_bind_reads reads_nameOr hs fun name s hs => ?_
    refine endsAs_bind_reads reads_expectOr hs fun _ s hs => ?_
    refine hexpression.bind hs fun value s hs => ?_
    exact endsAs_bind_reads reads_expectOr hs fun _ s _ => endsAs_pure _
  | ifThenElse =>
    refine endsAs_bind_reads reads_currentLine hs fun line s hs => ?_
    refine endsAs_bind_reads reads_expect hs fun _ s hs => ?_
    refine hexpression.bind hs fun condition s hs => ?_
    refine endsAs_bind_reads reads_expectOr hs fun _ s hs => ?_
    refine hexpression.bind hs fun thenBranch s hs => ?_
    exact endsAs_bind_reads reads_expectOr hs fun _ s _ => endsAs_pure _
  | function =>
    refine endsAs_bind_reads reads_currentLine hs fun line s hs => ?_
    refine endsAs_bind_reads reads_expect hs fun _ s hs => ?_
    refine endsAs_bind_reads reads_parameters hs fun names s hs => ?_
    exact endsAs_bind_reads reads_arrow hs fun _ s _ => endsAs_pure _

theorem endsAs_chain (hbinary : Runs call levels (.binary .relational))
    (hform : ∀ form, Runs call levels (.opening form)) (waiting : List OpenForm)
    (hs : s.levelsLeft = levels) :
    (FuelM.loop (chainTurn .standard call) waiting).EndsAs (chainRun levels waiting) s := by
  induction hn : s.rest.length using Nat.strongRecOn generalizing waiting s with
  | _ n ih =>
    refine EndsAs.loop ?_
    rw [chainRun, Rule.chainSteps_eq, chainTurn, FuelM.bind_assoc]
    refine EndsAs.bind (endsAs_lift current?) fun found after hrun => ?_
    cases hrun
    cases s.rest.head? with
    | none => exact rfl
    | some token =>
      simp only
      cases Tables.standard.form token.kind with
      | none =>
        simp only [FuelM.bind_assoc]
        refine hbinary.bind hs fun node s _ => ?_
        exact EndsAs.last (endsAs_lift (Rule.closeAll waiting node))
      | some form =>
        rw [FuelM.bind_assoc]
        refine EndsAs.bind (hform form s hs) fun opened after hrun => ?_
        have hlt := (form.rule (.expression .standard levels)).shortens s opened after hrun
        have hafter := ((reads_step levels (.opening form) s).levelsLeft hrun).trans hs
        exact EndsAs.again hlt (ih _ (hn ▸ hlt) (opened :: waiting) hafter rfl)

/-- Where no level is left the expression is refused, and else its chain has one less. -/
theorem endsAs_expression (hs : s.levelsLeft = levels)
    (hchain : ∀ inside, levels = inside + 1 → Runs call inside .chain) :
    (Call.expression.body .standard call).EndsAs (Call.expression.step levels) s := by
  cases levels with
  | zero =>
    refine EndsAs.bind (endsAs_lift descend) fun _ after hrun => ?_
    simp only [State.levelsLeft] at hs
    simp only [descend] at hrun
    split at hrun
    · cases hrun
    · omega
  | succ inside =>
    rw [step, Rule.expression_succ]
    refine EndsAs.bind (endsAs_lift descend) fun _ after hrun => ?_
    simp only [State.levelsLeft] at hs
    simp only [descend] at hrun
    split at hrun
    · cases hrun
    · cases hrun
      refine EndsAs.closing (hchain inside rfl _ ?_)
      simp only [State.levelsLeft]
      omega

end Bodies

/-! ## Enough fuel -/

theorem rank_lt_of_standardPower {kind : Kind} {power : Power}
    (h : Tables.standardPower kind = some power) : power.rank < 3 := by
  cases kind <;> cases h <;> decide

/-- A call with enough fuel for the levels that are left comes to the end that the
rule of the parser comes to. -/
theorem run_endsAs (fuel : Nat) {α : Type} (rule : Call α) (state : State)
    (h : rule.fuelFor state.levelsLeft ≤ fuel) :
    (rule.run .standard fuel).EndsAs (rule.step state.levelsLeft) state := by
  induction fuel generalizing α rule state with
  | zero => exact absurd h (by unfold fuelFor; omega)
  | succ fuel ih =>
    have hruns {β : Type} (levels : Nat) (callee : Call β) (hle : callee.fuelFor levels ≤ fuel) :
        Runs (run .standard fuel) levels callee := by
      rintro other rfl
      exact ih callee other hle
    unfold fuelFor at h hruns
    cases rule with
    | expression =>
      simp only [reach] at h
      refine endsAs_expression rfl fun inside hinside => hruns inside .chain ?_
      simp only [reach]
      omega
    | chain =>
      simp only [reach] at h
      refine endsAs_chain (hruns _ (.binary .relational) ?_)
        (fun form => hruns _ (.opening form) ?_) [] rfl
      · simp only [reach, Power.rank]
        omega
      · simp only [reach]
        omega
    | binary minimum =>
      have hminimum := minimum.rank_le
      simp only [reach] at h
      refine endsAs_binary (hruns _ .application ?_) (fun kind power hpower hmin =>
        hruns _ (.binary power.tighter) ?_) rfl
      · simp only [reach]
        omega
      · have hrank := rank_lt_of_standardPower hpower
        rw [Power.lt_iff] at hmin
        simp only [reach, Power.rank_tighter]
        omega
    | application =>
      simp only [reach] at h
      exact endsAs_application (hruns _ .primary (by simp only [reach]; omega)) rfl
    | primary =>
      simp only [reach] at h
      exact endsAs_primary (hruns _ .grouping (by simp only [reach]; omega)) rfl
    | grouping =>
      simp only [reach] at h
      exact endsAs_grouping (hruns _ .expression (by simp only [reach]; omega)) rfl
    | opening form =>
      simp only [reach] at h
      exact endsAs_opening (hruns _ .expression (by simp only [reach]; omega)) form rfl

end Call

/-- Every program is parsed within 1801 nested calls, and with more fuel the result is
the same: nine calls for each of the 200 expressions that may be open at once, and
one for the expression that is refused. -/
theorem parseWithin_eq_parse (tokens : List Token) (source : String) (extra : Nat) :
    parseWithin (1801 + extra) tokens source = some (parse tokens source) := by
  have hfuel : Call.expression.fuelFor (State.start tokens).levelsLeft ≤ 1801 + extra :=
    Nat.le_add_right 1801 extra
  have hrun : (Call.expression.run .standard (1801 + extra)).run (.start tokens) =
      some ((Entry.expression.step .standard).run (.start tokens)) :=
    Call.run_endsAs _ .expression (.start tokens) hfuel
  unfold parseWithin parse parseTokens
  rw [hrun]
  split
  · rfl
  · cases (Entry.expression.step .standard).run (.start tokens) <;> rfl

/-- One unit less does not suffice where 201 parentheses stand in each other, each of
them behind operators of all three powers. -/
example :
    let tokens := (List.replicate 201 ["1", "==", "1", "+", "1", "*", "("]).flatten
    (parseWithin 1800 (tokens.map (⟨·, 1⟩)) "").isNone ∧
      (parseWithin 1801 (tokens.map (⟨·, 1⟩)) "").isSome := by
  decide +kernel

end MlFront
