import MlFront.Proofs.Parser.Steps

/-!
# Steps that see no further than the token they stop at

`Effect` is what a step did, without the place where it did it: its result, how
many tokens it took and the nesting it left. A step is `LocalFrom` a state when
it has one effect there, and the same effect in every state that agrees with that
one on the tokens taken and on the one after them (`State.Agrees`). The lemmas
follow the way steps are put together.
-/

namespace MlFront

namespace State

/-- The states have the same nesting and line, and the same tokens ahead: `count`
tokens and one more. When fewer are left, they end in the same place. -/
def Agrees (count : Nat) (s t : State) : Prop :=
  t.nesting = s.nesting ∧ t.line = s.line ∧ t.rest.take (count + 1) = s.rest.take (count + 1)

theorem line_eq (state : State) :
    state.line = ((state.rest.head?.or state.before.head?).map (·.line)).getD 1 := by
  rcases state with ⟨_ | ⟨_, _⟩, _ | ⟨_, _⟩, nesting⟩ <;> rfl

/-- Behind some tokens the line is the one of the next token, at the end that of
the last token, and without tokens it has not changed. -/
theorem line_skip (state : State) (count : Nat) :
    (state.skip count).line =
      (((state.rest.drop count).head?.or state.rest.getLast?).map (·.line)).getD state.line := by
  rw [line_eq, rest_skip]
  by_cases h : count < state.rest.length
  · rw [List.drop_eq_getElem_cons h]
    rfl
  · rw [List.drop_eq_nil_of_le (Nat.le_of_not_lt h)]
    rcases state with ⟨before, rest, nesting⟩
    cases rest with
    | nil => simp [skip, line_eq]
    | cons token more =>
      have htake : (token :: more).take count = token :: more :=
        List.take_of_length_le (Nat.le_of_not_lt h)
      simp [skip, htake, List.getLast?_cons, List.head?_append]

theorem Agrees.refl (count : Nat) (state : State) : state.Agrees count state :=
  ⟨rfl, rfl, rfl⟩

/-- Where there is a next token, it gives the line. -/
theorem agrees_of_rest {s t : State} {count : Nat} (hrest : s.rest ≠ [])
    (hnesting : t.nesting = s.nesting) (h : t.rest.take (count + 1) = s.rest.take (count + 1)) :
    s.Agrees count t := by
  refine ⟨hnesting, ?_, h⟩
  have hhead := congrArg List.head? h
  rw [List.head?_take, List.head?_take, if_neg (Nat.succ_ne_zero _)] at hhead
  obtain ⟨token, more, hs⟩ := List.exists_cons_of_ne_nil hrest
  simp [line_eq, hhead, hs]

section Agrees

variable {s t : State} {count : Nat}

theorem Agrees.mono {fewer : Nat} (h : s.Agrees count t) (hle : fewer ≤ count) :
    s.Agrees fewer t := by
  obtain ⟨hnesting, hline, hrest⟩ := h
  refine ⟨hnesting, hline, ?_⟩
  have htake := congrArg (List.take (fewer + 1)) hrest
  rwa [List.take_take, List.take_take, Nat.min_eq_left (by omega)] at htake

theorem Agrees.head? (h : s.Agrees count t) : t.rest.head? = s.rest.head? := by
  have hhead := congrArg List.head? h.2.2
  rwa [List.head?_take, List.head?_take, if_neg (Nat.succ_ne_zero _)] at hhead

theorem Agrees.isEmpty_eq (h : s.Agrees count t) : t.rest.isEmpty = s.rest.isEmpty := by
  have hhead := h.head?
  cases hs : s.rest <;> cases ht : t.rest <;> simp_all

/-- Where the tokens end inside of what is compared, the states have the same ones left. -/
theorem Agrees.rest_eq (h : s.Agrees count t) (hle : s.rest.length ≤ count) :
    t.rest = s.rest := by
  obtain ⟨-, -, hrest⟩ := h
  have hlength := congrArg List.length hrest
  rw [List.length_take, List.length_take] at hlength
  rwa [List.take_of_length_le (by omega), List.take_of_length_le (by omega)] at hrest

theorem Agrees.le_length (h : s.Agrees count t) (hle : count ≤ s.rest.length) :
    count ≤ t.rest.length := by
  have hlength := congrArg List.length h.2.2
  rw [List.length_take, List.length_take] at hlength
  omega

/-- States agree behind the tokens that they agree on. -/
theorem Agrees.skip {a b : Nat} (h : s.Agrees (a + b) t) :
    (s.skip a).Agrees b (t.skip a) := by
  have htake : (t.rest.drop a).take (b + 1) = (s.rest.drop a).take (b + 1) := by
    have hdrop := congrArg (List.drop a) h.2.2
    rwa [List.drop_take, List.drop_take, Nat.add_assoc, Nat.add_sub_cancel_left] at hdrop
  refine ⟨h.1, ?_, htake⟩
  rw [line_skip, line_skip, h.2.1]
  by_cases hend : s.rest.length ≤ a
  · rw [h.rest_eq (Nat.le_trans hend (Nat.le_add_right a b))]
  · have hhead := congrArg List.head? htake
    rw [List.head?_take, List.head?_take, if_neg (Nat.succ_ne_zero _)] at hhead
    rw [hhead, List.drop_eq_getElem_cons (Nat.lt_of_not_le hend)]
    rfl

theorem Agrees.setNesting (h : s.Agrees count t) (nesting : Nat) :
    State.Agrees count { s with nesting := nesting } { t with nesting := nesting } :=
  ⟨rfl, h.2.1, h.2.2⟩

end Agrees

end State

/-- What a step did: its value or the cause and line of its fault, the number of
tokens it took and the nesting it left. -/
structure Effect (α : Type) where
  result : Except (Cause × Nat) α
  taken : Nat
  nesting : Nat

namespace Effect

variable {α : Type}

/-- The state that the effect leaves. -/
def after (effect : Effect α) (state : State) : State :=
  { state.skip effect.taken with nesting := effect.nesting }

/-- The effect at a state. -/
def outcome (effect : Effect α) (state : State) : Outcome α :=
  match effect.result with
  | .ok value => .ok value (effect.after state)
  | .error (cause, line) => .error ((effect.after state).faultAt cause line) (effect.after state)

end Effect

namespace ParseM

variable {α β : Type} {state : State}

/-- The step has one effect in all states that agree with the state on the
tokens that it takes there and on the one after them. -/
def LocalFrom (state : State) (step : ParseM α) : Prop :=
  ∃ effect : Effect α, effect.taken ≤ state.rest.length ∧
    ∀ other, state.Agrees effect.taken other → step.run other = effect.outcome other

/-- A step that moves over some tokens and succeeds. -/
theorem localFrom_ok {step : ParseM α} (value : α) (count : Nat) (hle : count ≤ state.rest.length)
    (h : ∀ other, state.Agrees count other → step.run other = .ok value (other.skip count)) :
    step.LocalFrom state := by
  refine ⟨⟨.ok value, count, state.nesting⟩, hle, fun other hagrees => (h other hagrees).trans ?_⟩
  simp only [Effect.outcome, Effect.after, ← hagrees.1]
  rfl

/-- A step that moves over some tokens and fails. -/
theorem localFrom_error {step : ParseM α} (cause : Cause) (line count : Nat)
    (hle : count ≤ state.rest.length)
    (h : ∀ other, state.Agrees count other →
      step.run other = .error ((other.skip count).faultAt cause line) (other.skip count)) :
    step.LocalFrom state := by
  refine ⟨⟨.error (cause, line), count, state.nesting⟩, hle,
    fun other hagrees => (h other hagrees).trans ?_⟩
  simp only [Effect.outcome, Effect.after, ← hagrees.1]
  rfl

theorem localFrom_pure (value : α) : (pure value : ParseM α).LocalFrom state :=
  localFrom_ok value 0 (Nat.zero_le _) fun other _ => by simp

theorem localFrom_fail (cause : Cause) : (fail cause : ParseM α).LocalFrom state :=
  localFrom_error cause state.line 0 (Nat.zero_le _) fun other h => by
    simp [fail, State.fault, h.2.1]

theorem localFrom_currentLine : currentLine.LocalFrom state :=
  localFrom_ok state.line 0 (Nat.zero_le _) fun other h => by simp [currentLine, h.2.1]

theorem localFrom_current? : current?.LocalFrom state :=
  localFrom_ok state.rest.head? 0 (Nat.zero_le _) fun other h => by simp [current?, h.head?]

theorem localFrom_operator? (tables : Tables) : (operator? tables).LocalFrom state :=
  localFrom_ok (state.operator? tables) 0 (Nat.zero_le _) fun other h => by
    simp [operator?, State.operator?, h.head?]

theorem localFrom_more (cause : Cause) : (more cause).LocalFrom state := by
  by_cases hend : state.rest.isEmpty
  · refine localFrom_error cause state.line 0 (Nat.zero_le _) fun other h => ?_
    simp only [more, h.isEmpty_eq, if_pos hend, State.skip_zero, State.fault, h.2.1]
  · refine localFrom_ok () 0 (Nat.zero_le _) fun other h => ?_
    simp only [more, h.isEmpty_eq, if_neg hend, State.skip_zero]

theorem localFrom_build (node : Node) : (build node).LocalFrom state := by
  by_cases hdeep : maxDepth < node.depth
  · exact localFrom_error .tooDeep state.line 0 (Nat.zero_le _) fun other h => by
      simp [build, hdeep, State.fault, h.2.1]
  · exact localFrom_ok node 0 (Nat.zero_le _) fun other _ => by simp [build, hdeep]

theorem localFrom_advance (h : state.rest ≠ []) : advance.LocalFrom state :=
  localFrom_ok state.rest.head? 1 (List.length_pos_iff.mpr h) fun other h => by
    simp [advance, h.head?, State.next_eq_skip]

/-- A step that takes the current token if it passes a test and else fails where it stands. -/
theorem localFrom_test {step : ParseM α} (accept : Token → Bool) (value : Token → α)
    {fault : State → Fault} (cause : Cause) (line : Nat)
    (hfault : ∀ other, state.Agrees 0 other → fault other = other.faultAt cause line)
    (hrun : ∀ other, step.run other =
      match other.rest with
      | token :: _ => if accept token then .ok (value token) other.next else .error (fault other) other
      | [] => .error (fault other) other) :
    step.LocalFrom state := by
  cases hrest : state.rest with
  | nil =>
    refine localFrom_error cause line 0 (Nat.zero_le _) fun other h => ?_
    have hother := h.rest_eq (by simp [hrest])
    simp [hrun, hother, hrest, hfault other h]
  | cons token rest =>
    by_cases haccept : accept token = true
    · refine localFrom_ok (value token) 1 (by simp [hrest]) fun other h => ?_
      have hhead := h.head?
      rw [hrest] at hhead
      obtain ⟨more, hother⟩ := List.head?_eq_some_iff.mp hhead
      simp [hrun, hother, haccept, State.next_eq_skip]
    · refine localFrom_error cause line 0 (Nat.zero_le _) fun other h => ?_
      have hhead := h.head?
      rw [hrest] at hhead
      obtain ⟨more, hother⟩ := List.head?_eq_some_iff.mp hhead
      simp [hrun, hother, haccept, hfault other h]

theorem localFrom_expectOr {text : String} {fault : State → Fault} (cause : Cause) (line : Nat)
    (hfault : ∀ other, state.Agrees 0 other → fault other = other.faultAt cause line) :
    (expectOr text fault).LocalFrom state :=
  localFrom_test (·.text == text) id cause line hfault
    fun other => by
      simp only [expectOr, beq_iff_eq]
      rfl

theorem localFrom_expect (text : String) : (expect text).LocalFrom state :=
  localFrom_expectOr
    (.expectedToken text ((state.rest.head?.map (·.text)).getD "end of input")) state.line
    fun other h => by rw [State.fault, h.2.1, h.head?]

theorem localFrom_nameOr (cause : Cause) (line : Nat) : (nameOr cause line).LocalFrom state :=
  localFrom_test (·.isNameShaped) (·.text) cause line (fun _ _ => rfl)
    fun _ => rfl

theorem takeWhile_eq_of_take_eq {p : Token → Bool} {a b : List Token}
    (h : b.take ((a.takeWhile p).length + 1) = a.take ((a.takeWhile p).length + 1)) :
    b.takeWhile p = a.takeWhile p := by
  induction a generalizing b with
  | nil =>
    obtain rfl : b = [] := by simpa using h
    rfl
  | cons token rest ih =>
    by_cases hp : p token = true
    · rw [List.takeWhile_cons_of_pos hp, List.length_cons, List.take_succ_cons] at h
      obtain ⟨more, rfl⟩ : ∃ more, b = token :: more := by
        cases b with
        | nil => simp at h
        | cons token' more => exact ⟨more, by simp_all⟩
      rw [List.take_succ_cons, List.cons.injEq] at h
      rw [List.takeWhile_cons_of_pos hp, List.takeWhile_cons_of_pos hp, ih h.2]
    · rw [List.takeWhile_cons_of_neg hp] at h ⊢
      cases b with
      | nil => rfl
      | cons token' more =>
        obtain rfl : token' = token := by simpa using h
        exact List.takeWhile_cons_of_neg hp

theorem localFrom_parameters : parameters.LocalFrom state := by
  refine localFrom_ok ((state.rest.takeWhile (·.isParameter)).map (·.text))
    (state.rest.takeWhile (·.isParameter)).length (List.takeWhile_sublist _).length_le fun other h => ?_
  simp only [parameters, takeWhile_eq_of_take_eq h.2.2]

theorem localFrom_arrow (names : List String) (line : Nat) : (arrow names line).LocalFrom state := by
  by_cases hnone : names.isEmpty || state.rest.head?.map (·.kind) != some .arrow
  · refine localFrom_error .expectedArrow line 0 (Nat.zero_le _) fun other h => ?_
    simp only [arrow, h.head?, if_pos hnone, State.skip_zero]
  · have hone : 1 ≤ state.rest.length := by
      cases hrest : state.rest <;> simp [hrest] at hnone ⊢
    have hnext : ∀ other, state.Agrees 1 other →
        (other.skip 1).rest.isEmpty = (state.skip 1).rest.isEmpty :=
      fun other h => (State.Agrees.skip (a := 1) (b := 0) h).isEmpty_eq
    by_cases hend : (state.skip 1).rest.isEmpty
    · refine localFrom_error .expectedFunctionBody line 1 hone fun other h => ?_
      simp only [arrow, h.head?, if_neg hnone, State.next_eq_skip, hnext other h]
      rw [if_pos hend]
    · refine localFrom_ok () 1 hone fun other h => ?_
      simp only [arrow, h.head?, if_neg hnone, State.next_eq_skip, hnext other h]
      rw [if_neg hend]

/-! ## Steps put together -/

/-- The next step only has to be local from the state that it is run in. -/
theorem LocalFrom.bind {step : ParseM α} {next : α → ParseM β} (h : step.LocalFrom state)
    (hnext : ∀ value after, step.run state = .ok value after → (next value).LocalFrom after) :
    (step >>= next).LocalFrom state := by
  obtain ⟨⟨result, taken, nesting⟩, hle, h⟩ := h
  cases result with
  | error fault =>
    refine ⟨⟨.error fault, taken, nesting⟩, hle, fun other hagrees => ?_⟩
    rw [run_bind, h other hagrees]
    rfl
  | ok value =>
    obtain ⟨⟨result, more, nesting'⟩, hmore, hnext⟩ := hnext value _ (h state (.refl _ _))
    refine ⟨⟨result, taken + more, nesting'⟩, ?_, fun other hagrees => ?_⟩
    · simp only [Effect.after, State.rest_skip, List.length_drop] at hle hmore ⊢
      omega
    · rw [run_bind, h other (hagrees.mono (Nat.le_add_right _ _))]
      refine (hnext _ ((State.Agrees.skip hagrees).setNesting nesting)).trans ?_
      cases result <;> simp [Effect.outcome, Effect.after, State.skip, List.take_add]

/-- A step inside one more open expression is as local as it is there. -/
theorem LocalFrom.nested {step : ParseM α}
    (h : step.LocalFrom { state with nesting := state.nesting + 1 }) :
    (descend >>= fun _ => closing step).LocalFrom state := by
  by_cases hlevel : maxNesting < state.nesting + 1
  · refine ⟨⟨.error (.tooNested, state.line), 0, state.nesting + 1⟩, Nat.zero_le _,
      fun other hagrees => ?_⟩
    have hline : ({ other with nesting := state.nesting + 1 } : State).line = state.line :=
      hagrees.2.1
    rw [run_bind]
    simp only [descend, hagrees.1, if_pos hlevel, Outcome.andThen_error, State.fault, hline]
    rfl
  · obtain ⟨⟨result, taken, nesting⟩, hle, h⟩ := h
    refine ⟨⟨result, taken, nesting - 1⟩, hle, fun other hagrees => ?_⟩
    have hrun := h _ (hagrees.setNesting (state.nesting + 1))
    rw [run_bind]
    simp only [descend, hagrees.1, if_neg hlevel, Outcome.andThen_ok, closing, hrun]
    cases result <;> rfl

end ParseM

end MlFront
