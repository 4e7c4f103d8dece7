import Mathlib.Data.List.TakeWhile
import MlFront.Proofs.Parser.Steps

/-!
# What a step has read when it succeeds

`Outcome.Reads outcome state P`: if the outcome, reached from `state`, is a
success, then the cursor has moved over some tokens and nothing else of the
state has changed, and `P` holds of the tokens, the value and the tokens left.
The lemmas follow the way steps are put together; `Reads.bind` hands the tokens
read so far on to the next step.
-/

namespace MlFront

/-- The outcome, reached from `state`, is a success only after reading tokens that satisfy `P`. -/
def Outcome.Reads {α : Type} (outcome : Outcome α) (state : State)
    (P : List Token → α → List Token → Prop) : Prop :=
  ∀ value after, outcome = .ok value after →
    ∃ taken, state.rest = taken ++ after.rest ∧ after = state.skip taken.length ∧
      P taken value after.rest

namespace Outcome

theorem Reads.mono {α : Type} {outcome : Outcome α} {state : State}
    {P Q : List Token → α → List Token → Prop} (h : outcome.Reads state P)
    (hPQ : ∀ taken value rest, P taken value rest → Q taken value rest) :
    outcome.Reads state Q := by
  intro value after he
  obtain ⟨taken, hrest, hafter, hP⟩ := h value after he
  exact ⟨taken, hrest, hafter, hPQ _ _ _ hP⟩

theorem reads_error {α : Type} (fault : Fault) (after state : State)
    (P : List Token → α → List Token → Prop) : (error fault after : Outcome α).Reads state P := by
  intro value after h
  cases h

theorem reads_ok {α : Type} {value : α} {state : State} {P : List Token → α → List Token → Prop}
    (h : P [] value state.rest) : (ok value state).Reads state P := by
  intro value after he
  cases he
  exact ⟨[], rfl, by simp, h⟩

theorem reads_next {α : Type} {value : α} {state : State} {token : Token} {rest : List Token}
    {P : List Token → α → List Token → Prop} (hrest : state.rest = token :: rest)
    (h : P [token] value rest) : (ok value state.next).Reads state P := by
  have hnext : state.next.rest = rest := by simp [State.next_eq_skip, hrest]
  intro value after he
  cases he
  exact ⟨[token], by rw [hnext]; exact hrest, State.next_eq_skip state, by rw [hnext]; exact h⟩

end Outcome

namespace ParseM

variable {α β : Type} {state : State} {P : List Token → α → List Token → Prop}

/-- The next step goes on behind the tokens that the first one has taken. -/
theorem Reads.bind {step : ParseM α} {next : α → ParseM β}
    {Q : List Token → β → List Token → Prop} (h : (step.run state).Reads state P)
    (hnext : ∀ taken value, state.rest = taken ++ (state.skip taken.length).rest →
      P taken value (state.skip taken.length).rest →
      step.run state = .ok value (state.skip taken.length) →
      ((next value).run (state.skip taken.length)).Reads (state.skip taken.length)
        fun more value rest => Q (taken ++ more) value rest) :
    ((step >>= next).run state).Reads state Q := by
  intro value after he
  obtain ⟨a, middle, h1, h2⟩ := Outcome.andThen_eq_ok he
  obtain ⟨taken, hrest, rfl, hP⟩ := h a middle h1
  obtain ⟨more, hmore, rfl, hQ⟩ := hnext taken a hrest hP h1 value after h2
  refine ⟨taken ++ more, ?_, ?_, hQ⟩
  · rw [hrest, hmore, List.append_assoc]
  · simp

theorem reads_expectOr {text : String} {fault : State → Fault} :
    ((expectOr text fault).run state).Reads state fun tokens token _ =>
      tokens = [token] ∧ token.text = text := by
  simp only [expectOr]
  split
  · next token rest hrest =>
    split
    · next htext => exact Outcome.reads_next hrest ⟨rfl, htext⟩
    · exact Outcome.reads_error _ _ _ _
  · exact Outcome.reads_error _ _ _ _

theorem reads_expect {text : String} :
    ((expect text).run state).Reads state fun tokens token _ =>
      tokens = [token] ∧ token.text = text :=
  reads_expectOr

theorem reads_nameOr {cause : Cause} {line : Nat} :
    ((nameOr cause line).run state).Reads state fun tokens name _ =>
      ∃ token, tokens = [token] ∧ token.isNameShaped = true ∧ name = token.text := by
  simp only [nameOr]
  split
  · next token rest hrest =>
    split
    · next hname => exact Outcome.reads_next hrest ⟨token, rfl, hname, rfl⟩
    · exact Outcome.reads_error _ _ _ _
  · exact Outcome.reads_error _ _ _ _

theorem reads_parameters :
    (parameters.run state).Reads state fun tokens names rest =>
      (∀ token ∈ tokens, token.isParameter = true) ∧ names = tokens.map (·.text) ∧
        ∀ token ∈ rest.head?, token.isParameter = false := by
  intro value after he
  cases he
  refine ⟨state.rest.takeWhile (·.isParameter), ?_, rfl, fun token => ?_, rfl, fun token => ?_⟩
  · rw [State.rest_skip_takeWhile, List.takeWhile_append_dropWhile]
  · exact List.mem_takeWhile_imp
  · rw [State.rest_skip_takeWhile]
    intro hhead
    have hstop := List.head?_dropWhile_not (·.isParameter) state.rest
    rw [hhead] at hstop
    exact hstop

theorem reads_arrow {names : List String} {line : Nat} :
    ((arrow names line).run state).Reads state fun tokens _ _ =>
      ∃ token, tokens = [token] ∧ token.kind = .arrow ∧ names ≠ [] := by
  simp only [arrow]
  split
  · exact Outcome.reads_error _ _ _ _
  · next hif =>
    split
    · exact Outcome.reads_error _ _ _ _
    · simp only [Bool.or_eq_true, not_or, List.isEmpty_iff, bne_iff_ne, ne_eq,
        Decidable.not_not, Option.map_eq_some_iff] at hif
      obtain ⟨hnames, token, hhead, hkind⟩ := hif
      obtain ⟨rest, hrest⟩ := List.head?_eq_some_iff.mp hhead
      exact Outcome.reads_next hrest ⟨token, rfl, hkind, hnames⟩

theorem reads_currentLine : (currentLine.run state).Reads state fun tokens _ rest =>
    tokens = [] ∧ rest = state.rest :=
  Outcome.reads_ok ⟨rfl, rfl⟩

theorem reads_advance {token : Token} {rest : List Token} (h : state.rest = token :: rest) :
    (advance.run state).Reads state fun tokens _ _ => tokens = [token] :=
  Outcome.reads_next h rfl

theorem reads_more {cause : Cause} : ((more cause).run state).Reads state fun tokens _ _ =>
    tokens = [] := by
  simp only [more]
  split
  · exact Outcome.reads_error _ _ _ _
  · exact Outcome.reads_ok rfl

theorem reads_build {node : Node} :
    ((build node).run state).Reads state fun tokens built rest =>
      tokens = [] ∧ built = node ∧ node.depth ≤ maxDepth ∧ rest = state.rest := by
  simp only [build]
  split
  · exact Outcome.reads_error _ _ _ _
  · exact Outcome.reads_ok ⟨rfl, rfl, by omega, rfl⟩

/-- A rule inside one more open expression reads what the rule reads there. -/
theorem reads_nested {step : ParseM α}
    (h : (step.run { state with nesting := state.nesting + 1 }).Reads
      { state with nesting := state.nesting + 1 } P) :
    ((descend >>= fun _ => closing step).run state).Reads state P := by
  intro value after he
  obtain ⟨⟨⟩, middle, h1, h2⟩ := Outcome.andThen_eq_ok he
  simp only [descend] at h1
  split at h1
  · cases h1
  · cases h1
    simp only [closing] at h2
    split at h2
    · next heq =>
      obtain ⟨taken, hrest, rfl, hP⟩ := h _ _ heq
      cases h2
      exact ⟨taken, hrest, rfl, hP⟩
    · cases h2

end ParseM

end MlFront
