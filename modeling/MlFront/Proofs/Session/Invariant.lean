import MlFront.Proofs.Error.Blame
import MlFront.Session

/-!
# What every operation of a session keeps

An `Operation` is anything that can be done to a parser under way, with any tables
and also after a failure. `Session.Over` holds of a session at any time: its tokens
and its source are those it was started with, the cursor stands on one of the tokens
or behind the last, and the current line is that of the token it stands on.
`Session.Moves` says what one operation does: the cursor never goes back, and a rule
that succeeds takes it forward.
-/

namespace MlFront

/-- What can be done to a parser under way: the commands of a session, and the two
steps that take more than a command can tell, a fault made from the state and a
node from elsewhere. -/
inductive Operation where
  | command (command : Command)
  | expectOr (text : String) (fault : State → Fault)
  | build (node : Node)

namespace Operation

/-- Whether the operation changes the tables. -/
def setsTables : Operation → Bool
  | command .addStandard | command (.setPower ..) | command (.setForm ..) => true
  | _ => false

end Operation

namespace Session

/-- Carries out one operation. -/
def perform (session : Session) : Operation → Session × Answer
  | .command command => session.step command
  | .expectOr text fault =>
    session.run (ParseM.expectOr text fault) fun token => keepToken (some token)
  | .build node => session.run (ParseM.build node) keepNode

/-- The session after some operations. -/
def after (session : Session) (operations : List Operation) : Session :=
  operations.foldl (fun session operation => (session.perform operation).1) session

/-- What holds at any time of a session over some tokens of a source. -/
structure Over (tokens : List Token) (source : String) (session : Session) : Prop where
  sameTokens : session.state.tokens = tokens
  sameSource : session.source = source
  inside : session.state.index ≤ tokens.length
  line : session.state.line =
    (tokens[min session.state.index (tokens.length - 1)]?.map (·.line)).getD 1

end Session

/-! ## The cursor -/

namespace State

/-- The second state has the same tokens as the first and stands no further back. -/
def Moved (s t : State) : Prop :=
  t.tokens = s.tokens ∧ s.index ≤ t.index

variable {s t : State}

theorem Moved.refl (state : State) : state.Moved state :=
  ⟨rfl, Nat.le_refl _⟩

theorem length_tokens (state : State) :
    state.tokens.length = state.index + state.rest.length := by
  simp [tokens, index]

theorem line_eq_getElem? (state : State) :
    state.line =
      (state.tokens[min state.index (state.tokens.length - 1)]?.map (·.line)).getD 1 := by
  have hcut : state.tokens = state.passed ++ state.rest := rfl
  by_cases hnone : state.tokens = []
  · obtain ⟨hbefore, hrest⟩ := List.append_eq_nil_iff.mp hnone
    rw [List.reverse_eq_nil_iff] at hbefore
    simp [hnone, line_eq, hbefore, hrest]
  · rw [← length_passed, hcut, map_line_eq_lineAt (hcut ▸ hnone), line_eq_lineAt]
    rfl

end State

/-! ## Steps -/

section Steps

variable {α : Type} {s : State}

/-- A local step keeps the tokens and goes no token back, also where it fails. -/
theorem ParseM.LocalFrom.moved {step : ParseM α} (h : step.LocalFrom s) :
    s.Moved (step.run s).after := by
  obtain ⟨effect, hle, hrun⟩ := h
  have hafter : (step.run s).after = effect.after s := by
    rw [hrun s (.refl _ _), Effect.outcome]
    cases effect.result <;> rfl
  rw [hafter]
  refine ⟨s.tokens_skip _, ?_⟩
  rw [Effect.index_after hle]
  exact Nat.le_add_right _ _

theorem moved_expectOr (text : String) (fault : State → Fault) :
    s.Moved ((ParseM.expectOr text fault).run s).after := by
  simp only [ParseM.expectOr]
  split
  · next token rest hrest =>
    split
    · refine ⟨s.tokens_next, ?_⟩
      show s.index ≤ s.next.index
      rw [State.next_eq_skip, State.index_skip (by simp [hrest])]
      exact Nat.le_add_right _ _
    · exact .refl s
  · exact .refl s

theorem moved_advance : s.Moved (ParseM.advance.run s).after := by
  by_cases hrest : s.rest = []
  · have hnext : s.next = s := by simp [State.next, hrest]
    simp only [ParseM.advance, Outcome.after, hnext]
    exact .refl s
  · exact (ParseM.localFrom_advance hrest).moved

theorem moved_descendFrom (opened count : Nat) (state : State) :
    state.Moved (Session.descendFrom opened count state).2.2 := by
  induction count generalizing opened state with
  | zero => exact .refl state
  | succ count ih =>
    simp only [Session.descendFrom]
    split
    · next hrun =>
      simp only [ParseM.descend] at hrun
      split at hrun <;> cases hrun
      exact ih _ _
    · next hrun =>
      simp only [ParseM.descend] at hrun
      split at hrun <;> cases hrun
      exact .refl state

end Steps

/-! ## Operations -/

namespace Session

variable {session : Session} {α : Type}

/-- The session keeps its source and its tables, and its cursor is moved on. -/
def Carries (before after : Session) : Prop :=
  before.state.Moved after.state ∧ after.source = before.source ∧ after.tables = before.tables

theorem Carries.refl (session : Session) : session.Carries session :=
  ⟨.refl _, rfl, rfl⟩

/-- What `keep` does with a value changes neither the state nor the tables. -/
def Harmless (keep : α → Session → Session × Answer) : Prop :=
  ∀ value session, (keep value session).1.state = session.state ∧
    (keep value session).1.source = session.source ∧
    (keep value session).1.tables = session.tables

theorem harmless_keepToken : Harmless keepToken :=
  fun _ _ => ⟨rfl, rfl, rfl⟩

theorem harmless_keepNode : Harmless keepNode :=
  fun _ _ => ⟨rfl, rfl, rfl⟩

theorem harmless_keepForm : Harmless keepForm :=
  fun _ _ => ⟨rfl, rfl, rfl⟩

theorem state_run {step : ParseM α} {keep : α → Session → Session × Answer}
    (hkeep : Harmless keep) : (session.run step keep).1.state = (step.run session.state).after := by
  simp only [run]
  split
  · next hrun => rw [(hkeep _ _).1, hrun]; rfl
  · next hrun => rw [hrun]; rfl

theorem carries_run {step : ParseM α} {keep : α → Session → Session × Answer}
    (hkeep : Harmless keep) (h : session.state.Moved (step.run session.state).after) :
    session.Carries (session.run step keep).1 := by
  refine ⟨state_run hkeep ▸ h, ?_⟩
  simp only [run]
  split
  · exact (hkeep _ _).2
  · exact ⟨rfl, rfl⟩

/-- Apart from the tables that an operation sets, it carries the session on. -/
theorem carries_perform (session : Session) (operation : Operation)
    (hsets : operation.setsTables = false) :
    session.Carries (session.perform operation).1 := by
  cases operation with
  | expectOr text fault =>
    exact carries_run (fun token => harmless_keepToken (some token)) (moved_expectOr text fault)
  | build node => exact carries_run harmless_keepNode (ParseM.localFrom_build node).moved
  | command command =>
    cases command with
    | look | currentKind | fail | failAt | operator | tables => exact .refl session
    | addStandard | setPower | setForm => cases hsets
    | current => exact carries_run harmless_keepToken ParseM.localFrom_current?.moved
    | advance => exact carries_run harmless_keepToken moved_advance
    | expect text =>
      exact carries_run (fun token => harmless_keepToken (some token)) (moved_expectOr text _)
    | expectOr text cause line =>
      exact carries_run (fun token => harmless_keepToken (some token)) (moved_expectOr text _)
    | descend count => exact ⟨moved_descendFrom 0 count session.state, rfl, rfl⟩
    | ascend count => exact ⟨⟨rfl, Nat.le_refl _⟩, rfl, rfl⟩
    | parse entry =>
      exact carries_run harmless_keepNode (entry.localFrom_step session.tables session.state).moved
    | parseForm form =>
      exact carries_run harmless_keepForm (form.localFrom_step session.tables session.state).moved
    | close =>
      simp only [perform, step]
      split
      · exact ⟨.refl _, rfl, rfl⟩
      · exact .refl session
    | build =>
      simp only [perform, step]
      split
      · exact .refl session
      · next nodes _ =>
        show Carries { session with nodes := nodes } _
        exact carries_run harmless_keepNode (ParseM.localFrom_build _).moved

/-- Setting the tables changes nothing else. -/
theorem moved_perform (session : Session) (operation : Operation) :
    session.state.Moved (session.perform operation).1.state ∧
      (session.perform operation).1.source = session.source := by
  by_cases hsets : operation.setsTables = true
  · cases operation with
    | expectOr | build => cases hsets
    | command command =>
      cases command with
      | addStandard | setPower | setForm => exact ⟨.refl session.state, rfl⟩
      | _ => cases hsets
  · have hcarries := session.carries_perform operation (Bool.eq_false_iff.mpr hsets)
    exact ⟨hcarries.1, hcarries.2.1⟩

theorem over_of {tokens : List Token} {source : String} (htokens : session.state.tokens = tokens)
    (hsource : session.source = source) : session.Over tokens source := by
  subst htokens
  exact ⟨rfl, hsource, by rw [State.length_tokens]; exact Nat.le_add_right _ _,
    session.state.line_eq_getElem?⟩

theorem Over.perform {tokens : List Token} {source : String} (h : session.Over tokens source)
    (operation : Operation) : (session.perform operation).1.Over tokens source := by
  obtain ⟨hmoved, hsource⟩ := session.moved_perform operation
  exact over_of (hmoved.1.trans h.sameTokens) (hsource.trans h.sameSource)

theorem Over.after {tokens : List Token} {source : String} (h : session.Over tokens source)
    (operations : List Operation) : (session.after operations).Over tokens source := by
  induction operations generalizing session with
  | nil => exact h
  | cons operation more ih => exact ih (h.perform operation)

end Session

end MlFront
