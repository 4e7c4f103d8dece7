import MlFront.Parser.Entry

/-!
# One turn of each loop

The parser has three loops: `Rule.arguments` collects the arguments of an
application, `Rule.climb` folds operators into their left operand and
`Rule.chain` collects open forms. Here each of them is a step of a parse
(`argumentSteps`, `foldSteps`, `chainSteps`), with an equation that says what
one turn looks at, what it runs and how it goes on. The rules built on the loops
have equations of the same kind. Nothing else about the parser unfolds a rule.
-/

namespace MlFront

namespace State

@[simp] theorem rest_skip (state : State) (count : Nat) :
    (state.skip count).rest = state.rest.drop count := rfl

@[simp] theorem skip_zero (state : State) : state.skip 0 = state := by
  simp [skip]

@[simp] theorem skip_skip (state : State) (a b : Nat) :
    (state.skip a).skip b = state.skip (a + b) := by
  simp [skip, List.take_add]

/-- Behind the tokens that `p` takes come those that `p` drops. -/
theorem rest_skip_takeWhile (state : State) (p : Token → Bool) :
    (state.skip (state.rest.takeWhile p).length).rest = state.rest.dropWhile p := by
  calc state.rest.drop (state.rest.takeWhile p).length
      = (state.rest.takeWhile p ++ state.rest.dropWhile p).drop (state.rest.takeWhile p).length := by
        rw [List.takeWhile_append_dropWhile]
    _ = state.rest.dropWhile p := List.drop_left

theorem index_skip {state : State} {count : Nat} (h : count ≤ state.rest.length) :
    (state.skip count).index = state.index + count := by
  simp [skip, index]
  omega

theorem operator?_eq_some {tables : Tables} {state : State} {operator : String} {power : Power}
    (h : state.operator? tables = some (operator, power)) :
    ∃ token rest, state.rest = token :: rest ∧ token.text = operator ∧
      tables.power token.kind = some power := by
  obtain ⟨token, hhead, hpower⟩ := Option.bind_eq_some_iff.mp h
  obtain ⟨rest, hrest⟩ := List.head?_eq_some_iff.mp hhead
  simp only [Option.map_eq_some_iff, Prod.mk.injEq] at hpower
  obtain ⟨_, hpower, rfl, rfl⟩ := hpower
  exact ⟨token, rest, hrest, rfl, hpower⟩

theorem operator?_eq_none {tables : Tables} {state : State} (h : state.operator? tables = none) :
    ∀ token ∈ state.rest.head?, tables.power token.kind = none := by
  intro token hhead
  rw [operator?, hhead] at h
  simpa using h

end State

@[simp] theorem Outcome.andThen_ok {α β : Type} (value : α) (after : State)
    (next : α → State → Outcome β) : (ok value after).andThen next = next value after := rfl

@[simp] theorem Outcome.andThen_error {α β : Type} (fault : Fault) (after : State)
    (next : α → State → Outcome β) : (error fault after).andThen next = .error fault after := rfl

namespace ParseM

@[ext]
theorem ext {α : Type} {a b : ParseM α} (h : ∀ state, a.run state = b.run state) : a = b := by
  cases a
  cases b
  congr
  exact funext h

/-- The operator at the cursor with its power, when the tables have one for it. -/
def operator? (tables : Tables) : ParseM (Option (String × Power)) where
  run state := .ok (state.operator? tables) state

/-- Fails when there are no tokens left. -/
def more (cause : Cause) : ParseM Unit where
  run state := if state.rest.isEmpty then .error (state.fault cause) state else .ok () state

theorem eq_of_more {cause : Cause} {state after : State}
    (h : (more cause).run state = .ok () after) : after = state := by
  simp only [more] at h
  split at h <;> cases h
  rfl

theorem eq_of_build {node built : Node} {state after : State}
    (h : (build node).run state = .ok built after) : after = state := by
  simp only [build] at h
  split at h <;> cases h
  rfl

end ParseM

namespace Rule

open ParseM

/-! ## Arguments -/

/-- `arguments` as a step of a parse. -/
def argumentSteps (argument : Rule Node) (done : List Node) : ParseM (List Node) :=
  ⟨arguments argument done⟩

theorem argumentSteps_eq (argument : Rule Node) (done : List Node) :
    argumentSteps argument done = (do
      match ← current? with
      | none => return done.reverse
      | some token =>
        if token.isTerminator || token.isBinaryOperator then return done.reverse
        else
          let node ← argument.step
          argumentSteps argument (node :: done)) := by
  ext state
  rcases state with ⟨before, _ | ⟨token, rest⟩, nesting⟩
  · simp [argumentSteps, arguments, current?]
  · simp only [argumentSteps, run_bind, current?, Outcome.andThen_ok, List.head?_cons]
    rw [arguments]
    simp only
    split
    · rfl
    · simp only [run_bind]
      split
      · next h => rw [← run, h, Outcome.andThen_error]
      · next h => rw [← run, h, Outcome.andThen_ok]

/-! ## Operators -/

section Climb

variable {tables : Tables} {minimum power : Power} {bound : Nat}
  {right : Power → RuleBelow bound Node} {left : Node} {state : State}
  {inBound : state.rest.length ≤ bound} {operator : String}

theorem climb_of_none (h : state.operator? tables = none) :
    climb tables minimum right left state inBound = .ok left state := by
  rw [climb]
  split
  · rfl
  · next h' => rw [h] at h'; cases h'

theorem climb_of_some (h : state.operator? tables = some (operator, power)) :
    climb tables minimum right left state inBound =
      if power < minimum then .ok left state
      else if state.next.rest.isEmpty then
        .error (state.next.fault (.expectedRightOperand operator)) state.next
      else
        match right power.tighter state.next
          (Nat.lt_of_lt_of_le (State.length_rest_next_lt h) inBound) with
        | ⟨.error fault after, _⟩ => .error fault after
        | ⟨.ok node after, hs⟩ =>
          if maxDepth < (Node.binary operator left node).depth then
            .error (after.fault .tooDeep) after
          else
            climb tables minimum right (.binary operator left node) after
              (Nat.le_trans (Nat.le_of_lt (hs node after rfl))
                (Nat.le_of_lt (Nat.lt_of_lt_of_le (State.length_rest_next_lt h) inBound))) := by
  rw [climb]
  split
  · next h' => rw [h] at h'; cases h'
  · next h' => rw [h] at h'; cases h'; rfl

end Climb

/-- Folding does not depend on how `right` is bounded, only on the outcomes it gives. -/
theorem climb_congr (tables : Tables) (minimum : Power) {bound bound' : Nat}
    (right : Power → RuleBelow bound Node) (right' : Power → RuleBelow bound' Node)
    (same : ∀ power state h h', (right power state h).val = (right' power state h').val)
    (left : Node) (state : State) (inBound : state.rest.length ≤ bound)
    (inBound' : state.rest.length ≤ bound') :
    climb tables minimum right left state inBound =
      climb tables minimum right' left state inBound' := by
  induction hn : state.rest.length using Nat.strongRecOn generalizing left state with
  | _ n ih =>
    cases h : state.operator? tables with
    | none => rw [climb_of_none h, climb_of_none h]
    | some found =>
      obtain ⟨operator, power⟩ := found
      have hlt := State.length_rest_next_lt h
      rw [climb_of_some h, climb_of_some h]
      have hsame := same power.tighter state.next (by omega) (by omega)
      generalize right power.tighter state.next _ = out at hsame
      generalize right' power.tighter state.next _ = out' at hsame
      obtain ⟨out, hs⟩ := out
      obtain ⟨out', hs'⟩ := out'
      cases hsame
      cases out with
      | error fault after => rfl
      | ok node after =>
        have := hs node after rfl
        have hmore := ih _ (by omega) (Node.binary operator left node) after (by omega) (by omega) rfl
        simp only [hmore]

/-- `climb` as a step of a parse, the right operands being runs of operators. -/
def foldSteps (tables : Tables) (operand : Rule Node) (minimum : Power) (left : Node) :
    ParseM Node where
  run state :=
    let bound := state.rest.length
    climb tables minimum (fun power => (binary tables operand power).below bound) left state
      (Nat.le_refl bound)

theorem foldSteps_eq (tables : Tables) (operand : Rule Node) (minimum : Power) (left : Node) :
    foldSteps tables operand minimum left = (do
      match ← operator? tables with
      | none => return left
      | some (operator, power) =>
        if power < minimum then return left
        else
          let _ ← advance
          more (.expectedRightOperand operator)
          let right ← (binary tables operand power.tighter).step
          let node ← build (.binary operator left right)
          foldSteps tables operand minimum node) := by
  ext state
  simp only [foldSteps, run_bind, operator?, Outcome.andThen_ok]
  cases h : state.operator? tables with
  | none => exact climb_of_none h
  | some found =>
    obtain ⟨operator, power⟩ := found
    have hlt := State.length_rest_next_lt h
    rw [climb_of_some h]
    simp only
    split
    · rfl
    · simp only [run_bind, advance, Outcome.andThen_ok, more]
      split
      · rfl
      · have hout : ((binary tables operand power.tighter).below state.rest.length state.next
          hlt).val = (binary tables operand power.tighter).step.run state.next := rfl
        generalize (binary tables operand power.tighter).below _ state.next _ = out at hout
        obtain ⟨out, hs⟩ := out
        rw [Outcome.andThen_ok, run_bind, ← hout]
        cases out with
        | error fault after => rfl
        | ok node after =>
          simp only [run_bind, build, Outcome.andThen_ok]
          split
          · rfl
          · rw [Outcome.andThen_ok]
            refine climb_congr _ _ _ _ ?_ _ _ _ _
            intros
            rfl

theorem binary_step (tables : Tables) (operand : Rule Node) (minimum : Power) :
    (binary tables operand minimum).step = (do
      let left ← operand.step
      foldSteps tables operand minimum left) := by
  ext state
  refine (binary_run tables operand minimum state).trans ?_
  rw [run_bind, ← run]
  cases operand.run state with
  | ok left middle => rfl
  | error fault after => rfl

/-! ## Open forms -/

/-- `chain` as a step of a parse. -/
def chainSteps (tables : Tables) (inner last : Rule Node) (waiting : List OpenForm) :
    ParseM Node :=
  ⟨chain tables inner last waiting⟩

theorem chainSteps_eq (tables : Tables) (inner last : Rule Node) (waiting : List OpenForm) :
    chainSteps tables inner last waiting = (do
      match ← current? with
      | none => ParseM.fail .unexpectedEnd
      | some token =>
        match tables.form token.kind with
        | none =>
          let node ← last.step
          closeAll waiting node
        | some form =>
          let opened ← (form.rule inner).step
          chainSteps tables inner last (opened :: waiting)) := by
  ext state
  rcases state with ⟨before, _ | ⟨token, rest⟩, nesting⟩
  · simp only [chainSteps]
    rw [chain]
    rfl
  · simp only [chainSteps, run_bind, current?, Outcome.andThen_ok, List.head?_cons]
    rw [chain]
    simp only [List.head?_cons]
    cases tables.form token.kind with
    | none => rfl
    | some form =>
      simp only [run_bind]
      split
      · next h => rw [← run, h, Outcome.andThen_error]
      · next h => rw [← run, h, Outcome.andThen_ok]

theorem expression_succ (tables : Tables) (levels : Nat) :
    (expression tables (levels + 1)).step = (do
      descend
      closing (chainSteps tables (expression tables levels)
        (binary tables (application (expression tables levels)) .relational) [])) := rfl

/-! ## Primaries -/

theorem primary_step (inner : Rule Node) :
    (primary inner).step = (do
      match ← current? with
      | none => ParseM.fail .unexpectedEnd
      | some token =>
        match token.kind with
        | .number =>
          let _ ← advance
          return .literal .number token.text
        | .kwTrue | .kwFalse =>
          let _ ← advance
          return .literal .boolean token.text
        | .openParen => (grouping inner).step
        | _ =>
          if token.isNameShaped then
            let _ ← advance
            return .identifier token.text
          else ParseM.fail (.unexpectedToken token.text)) := by
  ext state
  rcases state with ⟨before, _ | ⟨token, rest⟩, nesting⟩
  · rfl
  · simp only [primary, run_bind, current?, Outcome.andThen_ok, List.head?_cons]
    generalize token.kind = kind
    cases kind with
    | number | kwTrue | kwFalse | openParen => rfl
    | _ => simp only; split <;> rfl

theorem application_step (inner : Rule Node) :
    (application inner).step = (do
      let callee ← (primary inner).step
      let list ← argumentSteps (primary inner) []
      applied callee list) := rfl

end Rule

end MlFront
