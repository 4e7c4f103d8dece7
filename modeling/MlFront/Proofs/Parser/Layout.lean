import MlFront.Proofs.Parser.Locality

/-!
# The layout of a program does not matter

Two token lists with the same texts are parsed in lockstep, wherever their lines are:
`State.Alike` relates states that differ in nothing but the lines of their tokens,
`Outcome.Alike` outcomes that differ in nothing but lines. A line is read in two
places, by the steps that fail and by the forms, which hand the line of their keyword
on; so two steps that are compared may be given different lines.
-/

namespace MlFront

open ParseM

/-- The states differ in nothing but the lines of their tokens. -/
structure State.Alike (s t : State) : Prop where
  nesting : t.nesting = s.nesting
  index : t.index = s.index
  texts : t.rest.map (·.text) = s.rest.map (·.text)

/-- The outcomes are values that `R` relates, or faults of one cause at one index,
and the states that they leave are alike. -/
def Outcome.Alike {α : Type} (R : α → α → Prop) : Outcome α → Outcome α → Prop
  | ok a s, ok b t => R a b ∧ s.Alike t
  | error fault s, error fault' t =>
    fault'.cause = fault.cause ∧ fault'.position.tokenIndex = fault.position.tokenIndex ∧ s.Alike t
  | _, _ => False

/-- The error without its layout: its cause and the index of the token it points at. -/
def Error.site (error : Error) : Cause × Nat :=
  (error.cause, error.position.tokenIndex)

/-! ## States -/

theorem Token.kind_congr {a b : Token} (h : b.text = a.text) : b.kind = a.kind :=
  congrArg Kind.ofText h

theorem Token.isTerminator_congr {a b : Token} (h : b.text = a.text) :
    b.isTerminator = a.isTerminator :=
  congrArg Kind.isTerminator (kind_congr h)

theorem Token.isBinaryOperator_congr {a b : Token} (h : b.text = a.text) :
    b.isBinaryOperator = a.isBinaryOperator :=
  congrArg Kind.isBinaryOperator (kind_congr h)

theorem Token.isNameShaped_congr {a b : Token} (h : b.text = a.text) :
    b.isNameShaped = a.isNameShaped := by
  rw [Token.isNameShaped, Token.isNameShaped, h]

theorem Token.isParameter_congr {a b : Token} (h : b.text = a.text) :
    b.isParameter = a.isParameter := by
  rw [Token.isParameter, Token.isParameter, kind_congr h, isNameShaped_congr h]

theorem takeWhile_texts {p : Token → Bool} (hp : ∀ a b : Token, b.text = a.text → p b = p a)
    {as bs : List Token} (h : bs.map (·.text) = as.map (·.text)) :
    (bs.takeWhile p).map (·.text) = (as.takeWhile p).map (·.text) := by
  induction as generalizing bs with
  | nil =>
    obtain rfl : bs = [] := by simpa using h
    rfl
  | cons a as ih =>
    obtain ⟨b, bs, rfl, hb, hmore⟩ := List.map_eq_cons_iff.mp h
    rw [List.takeWhile_cons, List.takeWhile_cons, hp a b hb]
    split
    · rw [List.map_cons, List.map_cons, hb, ih hmore]
    · rfl

namespace State.Alike

variable {s t : State}

/-- Alike states have both no tokens left, or next tokens of one text. -/
theorem rest_cases (h : s.Alike t) :
    (s.rest = [] ∧ t.rest = []) ∨ ∃ a as b bs, s.rest = a :: as ∧ t.rest = b :: bs ∧
      b.text = a.text := by
  have htexts := h.texts
  cases hs : s.rest with
  | nil => exact .inl ⟨rfl, by simpa [hs] using htexts⟩
  | cons a as =>
    rw [hs, List.map_cons] at htexts
    obtain ⟨b, bs, ht, htext, -⟩ := List.map_eq_cons_iff.mp htexts
    exact .inr ⟨a, as, b, bs, rfl, ht, htext⟩

theorem length_rest (h : s.Alike t) : t.rest.length = s.rest.length := by
  have hlength := congrArg List.length h.texts
  rwa [List.length_map, List.length_map] at hlength

theorem isEmpty_eq (h : s.Alike t) : t.rest.isEmpty = s.rest.isEmpty := by
  rcases h.rest_cases with ⟨hs, ht⟩ | ⟨a, as, b, bs, hs, ht, -⟩ <;> simp [hs, ht]

theorem head?_texts (h : s.Alike t) :
    t.rest.head?.map (·.text) = s.rest.head?.map (·.text) := by
  rcases h.rest_cases with ⟨hs, ht⟩ | ⟨a, as, b, bs, hs, ht, htext⟩ <;> simp [*]

theorem head?_kind (h : s.Alike t) : t.rest.head?.map (·.kind) = s.rest.head?.map (·.kind) := by
  rcases h.rest_cases with ⟨hs, ht⟩ | ⟨a, as, b, bs, hs, ht, htext⟩
  · simp [hs, ht]
  · simp [hs, ht, Token.kind_congr htext]

theorem skip (h : s.Alike t) (count : Nat) : (s.skip count).Alike (t.skip count) where
  nesting := h.nesting
  index := by
    have hindex := h.index
    have hlength := h.length_rest
    simp only [State.index, State.skip, List.length_append, List.length_reverse,
      List.length_take] at hindex ⊢
    omega
  texts := by simp only [State.rest_skip, List.map_drop, h.texts]

theorem next (h : s.Alike t) : s.next.Alike t.next := by
  rw [State.next_eq_skip, State.next_eq_skip]
  exact h.skip 1

theorem setNesting (h : s.Alike t) (nesting : Nat) :
    State.Alike { s with nesting := nesting } { t with nesting := nesting } :=
  ⟨rfl, h.index, h.texts⟩

theorem closeOne (h : s.Alike t) : s.closeOne.Alike t.closeOne :=
  ⟨congrArg (· - 1) h.nesting, h.index, h.texts⟩

end State.Alike

/-! ## Steps -/

namespace ParseM

variable {α β : Type} {s t : State} {R : α → α → Prop}

theorem alike_fault {cause : Cause} {line line' : Nat} (h : s.Alike t) :
    (Outcome.error (s.faultAt cause line) s).Alike R (.error (t.faultAt cause line') t) :=
  ⟨rfl, h.index, h⟩

theorem alike_fail {cause : Cause} (h : s.Alike t) :
    ((fail cause).run s).Alike R ((fail cause).run t) :=
  alike_fault h

theorem alike_currentLine (h : s.Alike t) :
    (currentLine.run s).Alike (fun _ _ => True) (currentLine.run t) :=
  ⟨trivial, h⟩

theorem alike_advance (h : s.Alike t) :
    (advance.run s).Alike (fun _ _ => True) (advance.run t) :=
  ⟨trivial, h.next⟩

theorem alike_more {cause : Cause} (h : s.Alike t) :
    ((more cause).run s).Alike Eq ((more cause).run t) := by
  simp only [more, h.isEmpty_eq]
  split
  · exact alike_fault h
  · exact ⟨rfl, h⟩

theorem alike_build (node : Node) (h : s.Alike t) :
    ((build node).run s).Alike Eq ((build node).run t) := by
  simp only [build]
  split
  · exact alike_fault h
  · exact ⟨rfl, h⟩

theorem operator?_congr (tables : Tables) (h : s.Alike t) :
    t.operator? tables = s.operator? tables := by
  rcases h.rest_cases with ⟨hs, ht⟩ | ⟨a, as, b, bs, hs, ht, htext⟩
  · simp [State.operator?, hs, ht]
  · simp [State.operator?, hs, ht, Token.kind_congr htext, htext]

/-- A step that takes the current token if it passes a test of its text. -/
theorem alike_test {step step' : ParseM α} (accept : Token → Bool) (value : Token → α)
    {fault fault' : State → Fault} (haccept : ∀ a b : Token, b.text = a.text → accept b = accept a)
    (hvalue : ∀ a b : Token, b.text = a.text → R (value a) (value b)) (h : s.Alike t)
    (hfault : (Outcome.error (fault s) s).Alike R (.error (fault' t) t))
    (hrun : ∀ state, step.run state =
      match state.rest with
      | token :: _ =>
        if accept token then .ok (value token) state.next else .error (fault state) state
      | [] => .error (fault state) state)
    (hrun' : ∀ state, step'.run state =
      match state.rest with
      | token :: _ =>
        if accept token then .ok (value token) state.next else .error (fault' state) state
      | [] => .error (fault' state) state) :
    (step.run s).Alike R (step'.run t) := by
  rw [hrun, hrun']
  rcases h.rest_cases with ⟨hs, ht⟩ | ⟨a, as, b, bs, hs, ht, htext⟩
  · simp only [hs, ht]
    exact hfault
  · simp only [hs, ht, haccept a b htext]
    split
    · exact ⟨hvalue a b htext, h.next⟩
    · exact hfault

theorem alike_expectOr {text : String} {fault fault' : State → Fault} (h : s.Alike t)
    (hcause : (fault' t).cause = (fault s).cause)
    (hindex : (fault' t).position.tokenIndex = (fault s).position.tokenIndex) :
    ((expectOr text fault).run s).Alike (fun _ _ => True) ((expectOr text fault').run t) :=
  alike_test (·.text == text) id (fun a b h => by rw [h]) (fun _ _ _ => trivial) h
    ⟨hcause, hindex, h⟩ (fun state => by simp only [expectOr, beq_iff_eq]; rfl)
    (fun state => by simp only [expectOr, beq_iff_eq]; rfl)

theorem alike_expect {text : String} (h : s.Alike t) :
    ((expect text).run s).Alike (fun _ _ => True) ((expect text).run t) :=
  alike_expectOr h (by simp only [State.fault, State.faultAt, h.head?_texts]) h.index

theorem alike_nameOr {cause : Cause} {line line' : Nat} (h : s.Alike t) :
    ((nameOr cause line).run s).Alike Eq ((nameOr cause line').run t) :=
  alike_test (·.isNameShaped) (·.text) (fun _ _ => Token.isNameShaped_congr) (fun _ _ => Eq.symm) h
    (alike_fault h) (fun _ => rfl) (fun _ => rfl)

theorem alike_parameters (h : s.Alike t) : (parameters.run s).Alike Eq (parameters.run t) := by
  have htexts := takeWhile_texts (fun _ _ => Token.isParameter_congr) h.texts
  have hlength := congrArg List.length htexts
  rw [List.length_map, List.length_map] at hlength
  refine ⟨htexts.symm, ?_⟩
  rw [hlength]
  exact h.skip _

theorem alike_arrow {names : List String} {line line' : Nat} (h : s.Alike t) :
    ((arrow names line).run s).Alike Eq ((arrow names line').run t) := by
  simp only [arrow, h.head?_kind, h.next.isEmpty_eq]
  split
  · exact alike_fault h
  · split
    · exact alike_fault h.next
    · exact ⟨rfl, h.next⟩

/-! ## Steps put together -/

/-- The next steps are compared on values that are related, in states that are alike. -/
theorem Alike.bind {step step' : ParseM α} {next next' : α → ParseM β} {S : β → β → Prop}
    (h : (step.run s).Alike R (step'.run t))
    (hnext : ∀ a b s' t', step.run s = .ok a s' → R a b → s'.Alike t' →
      ((next a).run s').Alike S ((next' b).run t')) :
    ((step >>= next).run s).Alike S ((step' >>= next').run t) := by
  rw [run_bind, run_bind]
  cases hs : step.run s with
  | ok a s' =>
    cases ht : step'.run t with
    | ok b t' =>
      rw [hs, ht] at h
      exact hnext a b s' t' hs h.1 h.2
    | error => rw [hs, ht] at h; exact h.elim
  | error =>
    cases ht : step'.run t with
    | ok => rw [hs, ht] at h; exact h.elim
    | error => rw [hs, ht] at h; exact h

/-- A step inside one more open expression is the same in alike states if it is so there. -/
theorem Alike.nested {step step' : ParseM α} (h : s.Alike t)
    (hstep : ∀ s t, s.Alike t → (step.run s).Alike R (step'.run t)) :
    ((descend >>= fun _ => closing step).run s).Alike R
      ((descend >>= fun _ => closing step').run t) := by
  have hinside := h.setNesting (s.nesting + 1)
  rw [run_bind, run_bind]
  simp only [descend, h.nesting]
  split
  · exact alike_fault hinside
  · have hrun := hstep _ _ hinside
    simp only [Outcome.andThen_ok, closing]
    cases hs : step.run { s with nesting := s.nesting + 1 } <;>
      cases ht : step'.run { t with nesting := s.nesting + 1 } <;> rw [hs, ht] at hrun
    · exact ⟨hrun.1, hrun.2.closeOne⟩
    · exact hrun.elim
    · exact hrun.elim
    · exact ⟨hrun.1, hrun.2.1, hrun.2.2.closeOne⟩

end ParseM

/-! ## Rules -/

namespace Rule

/-- The rule does the same in states that are alike. -/
def Steady {α : Type} (rule : Rule α) : Prop :=
  ∀ s t, s.Alike t → (rule.step.run s).Alike Eq (rule.step.run t)

variable {inner : Rule Node} {s t : State}

theorem steady_grouping (hinner : inner.Steady) : (grouping inner).Steady := by
  intro s t h
  refine Alike.bind (alike_expect h) fun _ _ s t _ _ h => ?_
  refine Alike.bind (hinner s t h) fun node _ s t _ hnode h => ?_
  refine Alike.bind (alike_expectOr h rfl h.index) fun _ _ s t _ _ h => ?_
  exact ⟨hnode, h⟩

theorem steady_primary (hinner : inner.Steady) : (primary inner).Steady := by
  intro s t h
  simp only [primary]
  rcases h.rest_cases with ⟨hs, ht⟩ | ⟨a, as, b, bs, hs, ht, htext⟩
  · simp only [hs, ht]
    exact alike_fault h
  · simp only [hs, ht, Token.kind_congr htext, Token.isNameShaped_congr htext, htext]
    split
    · exact ⟨rfl, h.next⟩
    · exact ⟨rfl, h.next⟩
    · exact ⟨rfl, h.next⟩
    · exact steady_grouping hinner s t h
    · split
      · exact ⟨rfl, h.next⟩
      · exact alike_fault h

theorem alike_argumentSteps {argument : Rule Node} (hargument : argument.Steady) (done : List Node)
    (h : s.Alike t) :
    ((argumentSteps argument done).run s).Alike Eq ((argumentSteps argument done).run t) := by
  induction hn : s.rest.length using Nat.strongRecOn generalizing done s t with
  | _ n ih =>
    rw [argumentSteps_eq, run_bind, run_bind]
    simp only [current?, Outcome.andThen_ok]
    rcases h.rest_cases with ⟨hs, ht⟩ | ⟨a, as, b, bs, hs, ht, htext⟩
    · simp only [hs, ht]
      exact ⟨rfl, h⟩
    · simp only [hs, ht, List.head?_cons, Token.isTerminator_congr htext,
        Token.isBinaryOperator_congr htext]
      split
      · exact ⟨rfl, h⟩
      · refine Alike.bind (hargument s t h) fun node _ s' t' hrun hnode h' => ?_
        subst hnode
        exact ih _ (hn ▸ argument.shortens s node s' hrun) _ h' rfl

theorem steady_application (hinner : inner.Steady) : (application inner).Steady := by
  intro s t h
  rw [application_step]
  refine Alike.bind (steady_primary hinner s t h) fun callee _ s t _ hcallee h => ?_
  refine Alike.bind (alike_argumentSteps (steady_primary hinner) [] h)
    fun list _ s t _ hlist h => ?_
  subst hcallee hlist
  cases list with
  | nil => exact ⟨rfl, h⟩
  | cons => exact alike_build _ h

theorem alike_foldSteps {tables : Tables} {operand : Rule Node} {bound : Nat}
    (hright : ∀ power s t, s.rest.length < bound → s.Alike t →
      ((binary tables operand power).step.run s).Alike Eq
        ((binary tables operand power).step.run t))
    (minimum : Power) (left : Node) (hbound : s.rest.length ≤ bound) (h : s.Alike t) :
    ((foldSteps tables operand minimum left).run s).Alike Eq
      ((foldSteps tables operand minimum left).run t) := by
  induction hn : s.rest.length using Nat.strongRecOn generalizing left s t with
  | _ n ih =>
    rw [foldSteps_eq, run_bind, run_bind]
    simp only [operator?, Outcome.andThen_ok, operator?_congr tables h]
    split
    · exact ⟨rfl, h⟩
    · next operator power hop =>
      split
      · exact ⟨rfl, h⟩
      · have hlt := State.length_rest_next_lt hop
        refine Alike.bind (alike_advance h) fun _ _ _ _ hrun _ h => ?_
        cases hrun
        refine Alike.bind (alike_more h) fun _ _ _ _ hrun _ h => ?_
        obtain rfl := eq_of_more hrun
        refine Alike.bind (hright power.tighter _ _ (by omega) h) fun right _ s' _ hrun heq h => ?_
        subst heq
        have hshort := (binary tables operand power.tighter).shortens _ right s' hrun
        refine Alike.bind (alike_build _ h) fun node _ _ _ hrun heq hbuilt => ?_
        subst heq
        obtain rfl := eq_of_build hrun
        exact ih _ (by omega) node (by omega) hbuilt rfl

theorem steady_binary {tables : Tables} {operand : Rule Node} (hoperand : operand.Steady)
    (minimum : Power) : (binary tables operand minimum).Steady := by
  intro s t h
  induction hn : s.rest.length using Nat.strongRecOn generalizing minimum s t with
  | _ n ih =>
    rw [binary_step]
    refine Alike.bind (hoperand s t h) fun left _ s' t' hrun heq h' => ?_
    subst heq
    have hlt := operand.shortens s left s' hrun
    exact alike_foldSteps (fun power s t hlt' h => ih _ (by omega) power s t h rfl) minimum left
      (Nat.le_refl _) h'

theorem steady_letIn (hinner : inner.Steady) : (letIn inner).Steady := by
  intro s t h
  refine Alike.bind (alike_currentLine h) fun line line' s t _ _ h => ?_
  refine Alike.bind (alike_expect h) fun _ _ s t _ _ h => ?_
  refine Alike.bind (alike_nameOr h) fun name _ s t _ hname h => ?_
  refine Alike.bind (alike_expectOr h rfl h.index) fun _ _ s t _ _ h => ?_
  refine Alike.bind (hinner s t h) fun value _ s t _ hvalue h => ?_
  refine Alike.bind (alike_expectOr h rfl h.index) fun _ _ s t _ _ h => ?_
  exact ⟨by rw [hname, hvalue], h⟩

theorem steady_ifThenElse (hinner : inner.Steady) : (ifThenElse inner).Steady := by
  intro s t h
  refine Alike.bind (alike_currentLine h) fun line line' s t _ _ h => ?_
  refine Alike.bind (alike_expect h) fun _ _ s t _ _ h => ?_
  refine Alike.bind (hinner s t h) fun condition _ s t _ hcondition h => ?_
  refine Alike.bind (alike_expectOr h rfl h.index) fun _ _ s t _ _ h => ?_
  refine Alike.bind (hinner s t h) fun first _ s t _ hfirst h => ?_
  refine Alike.bind (alike_expectOr h rfl h.index) fun _ _ s t _ _ h => ?_
  exact ⟨by rw [hcondition, hfirst], h⟩

theorem steady_function : function.Steady := by
  intro s t h
  refine Alike.bind (alike_currentLine h) fun line line' s t _ _ h => ?_
  refine Alike.bind (alike_expect h) fun _ _ s t _ _ h => ?_
  refine Alike.bind (alike_parameters h) fun names _ s t _ hnames h => ?_
  subst hnames
  refine Alike.bind (alike_arrow h) fun _ _ s t _ _ h => ?_
  exact ⟨rfl, h⟩

theorem steady_form (hinner : inner.Steady) (form : Form) : (form.rule inner).Steady := by
  cases form with
  | letIn => exact steady_letIn hinner
  | ifThenElse => exact steady_ifThenElse hinner
  | function => exact steady_function

theorem alike_closeAll (forms : List OpenForm) (node : Node) (h : s.Alike t) :
    ((closeAll forms node).run s).Alike Eq ((closeAll forms node).run t) := by
  induction forms generalizing node s t with
  | nil => exact ⟨rfl, h⟩
  | cons form more ih =>
    refine Alike.bind (alike_build _ h) fun node _ s' t' _ heq h' => ?_
    subst heq
    exact ih node h'

theorem alike_chainSteps {tables : Tables} {last : Rule Node} (hinner : inner.Steady)
    (hlast : last.Steady) (waiting : List OpenForm) (h : s.Alike t) :
    ((chainSteps tables inner last waiting).run s).Alike Eq
      ((chainSteps tables inner last waiting).run t) := by
  induction hn : s.rest.length using Nat.strongRecOn generalizing waiting s t with
  | _ n ih =>
    rw [chainSteps_eq, run_bind, run_bind]
    simp only [current?, Outcome.andThen_ok]
    rcases h.rest_cases with ⟨hs, ht⟩ | ⟨a, as, b, bs, hs, ht, htext⟩
    · simp only [hs, ht]
      exact alike_fail h
    · simp only [hs, ht, List.head?_cons, Token.kind_congr htext]
      split
      · refine Alike.bind (hlast s t h) fun node _ s' t' _ heq h' => ?_
        subst heq
        exact alike_closeAll waiting node h'
      · next form _ =>
        refine Alike.bind (steady_form hinner form s t h) fun opened _ s' t' hrun heq h' => ?_
        subst heq
        exact ih _ (hn ▸ (form.rule inner).shortens s opened s' hrun) _ h' rfl

theorem steady_expression (tables : Tables) (levels : Nat) :
    (expression tables levels).Steady := by
  induction levels with
  | zero => exact fun s t h => Alike.nested h fun s t h => alike_fail h
  | succ levels ih =>
    intro s t h
    rw [expression_succ]
    exact Alike.nested h fun s t h =>
      alike_chainSteps ih (steady_binary (steady_application ih) _) [] h

end Rule

/-! ## Whole programs -/

/-- Parsing gives one tree, or errors of one cause at one index, for all ways of laying
the same token texts out over the lines of any two sources. Programs whose tokens
have the same texts are such. -/
theorem parse_layout :
    (∀ (tokens others : List Token) (source source' : String),
      others.map (·.text) = tokens.map (·.text) →
      (parse others source').mapError Error.site = (parse tokens source).mapError Error.site) ∧
    ∀ source source' : String,
      (tokenize source').map (·.text) = (tokenize source).map (·.text) →
      (parseSource source').mapError Error.site = (parseSource source).mapError Error.site := by
  have hparse (tokens others : List Token) (source source' : String)
      (h : others.map (·.text) = tokens.map (·.text)) :
      (parse others source').mapError Error.site =
        (parse tokens source).mapError Error.site := by
    have hstart : (State.start tokens).Alike (.start others) := ⟨rfl, rfl, h⟩
    have hrun : ((Entry.expression.step .standard).run (.start tokens)).Alike Eq
        ((Entry.expression.step .standard).run (.start others)) :=
      Rule.steady_expression .standard maxNesting _ _ hstart
    have hempty : others.isEmpty = tokens.isEmpty := hstart.isEmpty_eq
    unfold parse parseTokens
    rw [hempty]
    split
    · rfl
    · cases hs : (Entry.expression.step .standard).run (.start tokens) <;>
        cases ht : (Entry.expression.step .standard).run (.start others) <;> rw [hs, ht] at hrun
      · rw [hrun.1]
        rfl
      · exact hrun.elim
      · exact hrun.elim
      · exact congrArg Except.error (Prod.ext hrun.1 hrun.2.1)
  exact ⟨hparse, fun source source' h => hparse _ _ source source' h⟩

/-- An `else` is missing on two lines, and a function is read over three. -/
theorem parse_layout_lines :
    let tokens := tokenize "if a then f b"
    let others := tokenize "\nif a -- not yet\r\nthen f b"
    let source := "fn x -> x"
    let source' := "fn x\r-> -- its body\nx"
    (others.map (·.text) = tokens.map (·.text) ∧
      (parse tokens "if a then f b").mapError Error.site = .error (.expectedElse, 5) ∧
      (parse others "").mapError Error.site =
        (parse tokens "if a then f b").mapError Error.site) ∧
    (tokenize source').map (·.text) = (tokenize source).map (·.text) ∧
      (parseSource source').mapError Error.site = (parseSource source).mapError Error.site := by
  intro tokens others source source'
  have htokens : others.map (·.text) = tokens.map (·.text) := by decide +kernel
  have hsource : (tokenize source').map (·.text) = (tokenize source).map (·.text) := by
    decide +kernel
  exact ⟨⟨htokens, by decide +kernel, parse_layout.1 tokens others _ _ htokens⟩, hsource,
    parse_layout.2 source source' hsource⟩

end MlFront
