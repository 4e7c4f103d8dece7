import MlFront.Proofs.Grammar.Complete
import MlFront.Proofs.Parser.Locality
import MlFront.Proofs.Parser.Nesting

/-!
# Operands

An *operand* is a run of tokens that the rule for applications takes whole
(`Operand`), with any tables. It is read in the same way in front of everything
that ends an application (`Operand.run_application`). A primary cannot see what is
behind it, since it ends with a token that it takes (`Rule.Exact`); the arguments
of an application do look one token ahead, and go on in front of neither the end
nor a terminator nor a binary operator.
-/

namespace MlFront

open ParseM Grammar

namespace Rule

variable {α : Type} {inner : Rule Node} {nesting : Nat} {state other : State} {rest : List Token}

/-- A local rule that closes what it opens reads tokens. It gives the same value
wherever these and the token behind them are ahead. -/
theorem reads_ahead {rule : Rule α} (hlocal : rule.Local) (hbalanced : rule.Balanced nesting)
    (hstate : state.nesting = nesting) :
    (rule.step.run state).Reads state fun taken value rest =>
      ∀ other : State, other.nesting = nesting →
        other.rest.take (taken.length + 1) = (taken ++ rest).take (taken.length + 1) →
        rule.step.run other = .ok value (other.skip taken.length) := by
  intro value after hrun
  obtain ⟨⟨result, count, closed⟩, hle, heffect⟩ := hlocal state
  have hself := heffect state (.refl _ _)
  cases result with
  | error fault =>
    rw [hrun] at hself
    cases hself
  | ok found =>
    have hclosed := hbalanced state hstate
    have hshort := rule.shortens state value after hrun
    rw [hrun] at hself hclosed
    cases hself
    obtain rfl : closed = state.nesting := hclosed
    have hlength : (state.rest.take count).length = count := by simp [hle]
    refine ⟨state.rest.take count, (List.take_append_drop _ _).symm, ?_,
      fun other hother htake => ?_⟩
    · rw [hlength]
      rfl
    · rw [hlength] at htake ⊢
      have hnesting : other.nesting = state.nesting := hother.trans hstate.symm
      have hahead : other.rest.take (count + 1) = state.rest.take (count + 1) :=
        htake.trans (by rw [Effect.after, State.rest_skip, List.take_append_drop])
      have hsome : state.rest ≠ [] := List.ne_nil_of_length_pos (Nat.zero_lt_of_lt hshort)
      rw [heffect other (State.agrees_of_rest hsome hnesting hahead)]
      simp only [Effect.outcome, Effect.after, ← hnesting]
      rfl

/-- Where `nesting` expressions are open, a success of the rule depends on the
tokens that it takes and on no other. -/
def Exact (nesting : Nat) (rule : Rule α) : Prop :=
  ∀ state : State, state.nesting = nesting → (rule.step.run state).Reads state fun taken value _ =>
    ∀ (other : State) (rest : List Token), other.nesting = nesting → other.rest = taken ++ rest →
      rule.step.run other = .ok value (other.skip taken.length)

/-- The closing parenthesis is the one token that the expression inside looks ahead. -/
theorem exact_grouping (hlocal : inner.Local) (hbalanced : inner.Balanced nesting) :
    (grouping inner).Exact nesting := by
  intro state hstate
  refine Reads.bind reads_expect ?_
  rintro _ openParen - ⟨rfl, hopen⟩ -
  refine Reads.bind (reads_ahead hlocal hbalanced hstate) ?_
  rintro inside node - hinside -
  refine Reads.bind reads_expectOr ?_
  rintro _ closeParen hclosed ⟨rfl, hclose⟩ -
  refine Outcome.reads_ok fun other rest hother hrest => ?_
  simp only [List.append_assoc, List.cons_append, List.nil_append, List.append_nil] at hrest
  refine run_bind_one hrest (run_expect hrest hopen) fun hrest => ?_
  have hnode := hinside (other.skip 1) hother (by rw [hrest, hclosed]; simp [List.take_append])
  refine run_bind_skip hrest hnode fun hrest => ?_
  refine run_bind_one hrest (run_expectOr hrest hclose) fun _ => ?_
  simp [Nat.add_comm, Nat.add_left_comm]

theorem exact_primary (hlocal : inner.Local) (hbalanced : inner.Balanced nesting) :
    (primary inner).Exact nesting := by
  intro state hstate
  have hgrouping := exact_grouping hlocal hbalanced state hstate
  simp only [primary]
  split
  · exact Outcome.reads_error _ _ _ _
  · next token more hrest =>
    split
    · next hkind =>
      exact Outcome.reads_next hrest fun other rest _ hother => by
        simp [hother, hkind, State.next_eq_skip]
    · next hkind =>
      exact Outcome.reads_next hrest fun other rest _ hother => by
        simp [hother, hkind, State.next_eq_skip]
    · next hkind =>
      exact Outcome.reads_next hrest fun other rest _ hother => by
        simp [hother, hkind, State.next_eq_skip]
    · next hkind =>
      intro node after hrun
      obtain ⟨taken, htaken, hafter, hsame⟩ := hgrouping node after hrun
      have hshort := (grouping inner).shortens state node after hrun
      cases taken with
      | nil => simp [htaken] at hshort
      | cons first taken =>
        obtain rfl : token = first := by
          rw [hrest, List.cons_append, List.cons.injEq] at htaken
          exact htaken.1
        refine ⟨_, htaken, hafter, fun other rest hnesting hother => ?_⟩
        rw [← hsame other rest hnesting hother]
        simp only [hother, List.cons_append, hkind]
    · split
      · next hname =>
        refine Outcome.reads_next hrest fun other rest _ hother => ?_
        simp only [hother, List.cons_append, List.nil_append]
        split <;> simp_all [State.next_eq_skip]
      · exact Outcome.reads_error _ _ _ _

/-- Arguments that are taken up to the end are taken in front of what ends an application. -/
theorem run_argumentSteps_append {argument : Rule Node} (h : argument.Exact nesting)
    (hend : AfterOperand rest) {list : List Node} {after : State} (hwhole : after.rest = [])
    (done : List Node) (state other : State) (hstate : state.nesting = nesting)
    (hother : other.nesting = nesting) (hrest : other.rest = state.rest ++ rest)
    (hrun : (argumentSteps argument done).run state = .ok list after) :
    (argumentSteps argument done).run other = .ok list (other.skip state.rest.length) := by
  induction hn : state.rest.length using Nat.strongRecOn generalizing done state other with
  | _ n ih =>
    rw [argumentSteps_eq, run_bind] at hrun ⊢
    simp only [current?, Outcome.andThen_ok] at hrun ⊢
    cases hcursor : state.rest with
    | nil =>
      rw [hcursor] at hrun hrest hn
      cases hrun
      subst hn
      rw [List.length_nil, State.skip_zero]
      cases hhead : other.rest.head? with
      | none => rfl
      | some token =>
        rw [hrest, List.nil_append] at hhead
        have hstop := hend token hhead
        simp [hstop]
    | cons token more =>
      have hhead : other.rest.head? = some token := by simp [hrest, hcursor]
      simp only [hcursor, List.head?_cons, hhead] at hrun ⊢
      split at hrun
      · -- the token would be left
        cases hrun
        simp [hcursor] at hwhole
      · next hgo =>
        rw [if_neg hgo]
        obtain ⟨node, middle, hnode, hmore⟩ := Outcome.andThen_eq_ok hrun
        obtain ⟨taken, htaken, rfl, hsame⟩ := h state hstate node middle hnode
        have hshort := argument.shortens state node _ hnode
        have hlength : taken.length + (state.skip taken.length).rest.length = n := by
          rw [← hn, ← List.length_append, ← htaken]
        rw [htaken, List.append_assoc] at hrest
        have hmore' := ih _ (hn ▸ hshort) (node :: done) (state.skip taken.length)
          (other.skip taken.length) hstate hother (by rw [other.rest_skip, hrest, List.drop_left])
          hmore rfl
        rw [run_bind_of_ok (hsame other _ hother hrest), hmore', State.skip_skip, hlength]

/-- Applying a callee takes no tokens and looks at none. -/
theorem run_applied_of_ok {callee node : Node} {list : List Node} {after : State}
    (hrun : (applied callee list).run state = .ok node after) :
    after = state ∧ ∀ other : State, (applied callee list).run other = .ok node other := by
  cases list with
  | nil =>
    cases hrun
    exact ⟨rfl, fun _ => rfl⟩
  | cons argument more =>
    simp only [applied, build] at hrun ⊢
    split at hrun <;> cases hrun
    next hdepth => exact ⟨rfl, fun _ => if_neg hdepth⟩

/-- An application that is taken up to the end is taken in front of what ends one. -/
theorem run_application_append (hlocal : inner.Local) (hbalanced : inner.Balanced nesting)
    (hend : AfterOperand rest) {node : Node} {after : State} (hwhole : after.rest = [])
    (hstate : state.nesting = nesting) (hother : other.nesting = nesting)
    (hrest : other.rest = state.rest ++ rest)
    (hrun : (application inner).step.run state = .ok node after) :
    (application inner).step.run other = .ok node (other.skip state.rest.length) := by
  have hprimary := exact_primary hlocal hbalanced
  obtain ⟨callee, middle, hcallee, hbehind⟩ := Outcome.andThen_eq_ok hrun
  obtain ⟨taken, htaken, rfl, hsame⟩ := hprimary state hstate callee middle hcallee
  obtain ⟨list, final, hlist, happly⟩ := Outcome.andThen_eq_ok hbehind
  obtain ⟨rfl, happlied⟩ := run_applied_of_ok happly
  have hlength : taken.length + (state.skip taken.length).rest.length = state.rest.length := by
    rw [← List.length_append, ← htaken]
  rw [htaken, List.append_assoc] at hrest
  have hlist' := run_argumentSteps_append hprimary hend hwhole [] (state.skip taken.length)
    (other.skip taken.length) hstate hother (by rw [other.rest_skip, hrest, List.drop_left]) hlist
  rw [application_step, run_bind_of_ok (hsame other _ hother hrest), run_bind_of_ok hlist',
    happlied, State.skip_skip, hlength]

end Rule

/-- A run of tokens that the rule for applications takes whole where `nesting`
expressions are open, with the node it gives. -/
structure Operand (tables : Tables) (nesting : Nat) where
  tokens : List Token
  node : Node
  whole : ∃ after, (Entry.application.step tables).run ⟨[], tokens, nesting⟩ = .ok node after ∧
    after.rest = []

namespace Operand

variable {tables : Tables} {nesting : Nat} {state : State} {rest : List Token}

theorem tokens_ne_nil (operand : Operand tables nesting) : operand.tokens ≠ [] := by
  obtain ⟨tokens, node, after, hrun, -⟩ := operand
  rintro rfl
  cases hrun

/-- A number is an operand. -/
def number (tables : Tables) (nesting : Nat) (token : Token) (h : token.kind = .number) :
    Operand tables nesting where
  tokens := [token]
  node := .literal .number token.text
  whole := by
    refine ⟨⟨[token], [], nesting⟩, ?_, rfl⟩
    simp only [Entry.step, Entry.rule, Rule.run]
    rw [Rule.application_step, Rule.argumentSteps_eq]
    simp [Rule.primary, h, State.next, current?, Rule.applied]

/-- In front of what ends an application the operand is read as on its own. -/
theorem run_application (operand : Operand tables nesting) (hstate : state.nesting = nesting)
    (hrest : state.rest = operand.tokens ++ rest) (hend : AfterOperand rest) :
    (Rule.application (.expression tables (maxNesting - nesting))).step.run state =
      .ok operand.node (state.skip operand.tokens.length) := by
  obtain ⟨after, hrun, hwhole⟩ := operand.whole
  have hbalanced : (Rule.expression tables (maxNesting - nesting)).Balanced nesting :=
    Rule.balanced_expression tables (by omega)
  exact Rule.run_application_append (Rule.local_expression tables _) hbalanced hend hwhole rfl
    hstate hrest hrun

end Operand

end MlFront
