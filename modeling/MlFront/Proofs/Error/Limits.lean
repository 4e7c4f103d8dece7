import MlFront.Proofs.Error.Prefix
import MlFront.Proofs.Error.Truth

/-!
# Only large programs meet the limits

An error that is no fault of the program is one of the two limits, and the tokens in front
of it account for it: 200 tokens behind which an expression may start one level further
in, or more tokens than a tree may have levels.
-/

namespace MlFront

open Grammar

/-- The limits are the only internal causes. -/
theorem limit_of_isInternal {tokens : List Token} {source : String} {error : Error}
    (h : parse tokens source = .error error) (hinternal : error.cause.isInternal = true) :
    error.cause = .tooNested ∨ error.cause = .tooDeep := by
  obtain ⟨passed, rest, -, -, hgrounds⟩ := exists_grounds h
  have htrue := hgrounds.trueAt
  cases hcause : error.cause with
  | internal reason =>
    rw [hcause] at htrue
    exact htrue
  | _ => rw [hcause] at hinternal; cases hinternal

/-- The nesting limit is only met behind 200 tokens that deepen, the limit on the tree only
behind 2001 tokens. So a program of at most 2000 tokens, fewer than 200 of which deepen,
meets neither, whatever else is wrong with it. -/
theorem limits_spare_small_programs (tokens : List Token) (source : String) :
    (∀ error, parse tokens source = .error error →
      (error.cause = .tooNested →
        200 ≤ (tokens.take error.position.tokenIndex).countP (·.deepens)) ∧
      (error.cause = .tooDeep →
        2001 ≤ error.position.tokenIndex ∧ error.position.tokenIndex ≤ tokens.length)) ∧
    (tokens.length ≤ 2000 → tokens.countP (·.deepens) < 200 →
      ∀ error, parse tokens source = .error error → error.cause.isInternal = false) := by
  have hlimits : ∀ error, parse tokens source = .error error →
      (error.cause = .tooNested →
        200 ≤ (tokens.take error.position.tokenIndex).countP (·.deepens)) ∧
      (error.cause = .tooDeep →
        2001 ≤ error.position.tokenIndex ∧ error.position.tokenIndex ≤ tokens.length) := by
    intro error herror
    obtain ⟨passed, rest, rfl, hindex, -⟩ := exists_grounds herror
    have hunfinished := unfinished_of_parse_eq_error herror
    refine ⟨hunfinished.nested, fun hcause => ?_⟩
    have hdeep := hunfinished.deep hcause
    rw [← hindex, List.take_left] at hdeep
    rw [← hindex, List.length_append]
    exact ⟨hdeep, Nat.le_add_right _ _⟩
  refine ⟨hlimits, fun hlength hcount error herror => Bool.eq_false_iff.mpr fun hinternal => ?_⟩
  obtain ⟨hnested, hdeep⟩ := hlimits error herror
  rcases limit_of_isInternal herror hinternal with hcause | hcause
  · have := hnested hcause
    have := (tokens.take_sublist error.position.tokenIndex).countP_le (p := (·.deepens))
    omega
  · have := hdeep hcause
    omega

/-- 200 parentheses meet the nesting limit, a sum of 2001 names the limit on the tree, and
`(1 +` neither of them. -/
theorem limits_of_parens_and_sums :
    let parens : List Token := List.replicate 200 ⟨"(", 1⟩
    let sum : List Token := ⟨"x", 1⟩ :: (List.replicate 2000 [⟨"+", 1⟩, ⟨"x", 1⟩]).flatten
    let small : List Token := [⟨"(", 1⟩, ⟨"1", 1⟩, ⟨"+", 2⟩]
    let incomplete : Error := ⟨.expectedRightOperand "+", ⟨2, 3⟩, "+"⟩
    (parse parens "" = .error ⟨.tooNested, ⟨1, 200⟩, ""⟩ ∧
      200 ≤ (parens.take 200).countP (·.deepens)) ∧
    (parse sum "" = .error ⟨.tooDeep, ⟨1, 4001⟩, ""⟩ ∧ 2001 ≤ 4001 ∧ 4001 ≤ sum.length) ∧
    (small.length ≤ 2000 ∧ small.countP (·.deepens) < 200 ∧
      parse small "(1\n+" = .error incomplete ∧ incomplete.cause.isInternal = false) := by
  intro parens sum small incomplete
  have hparens : parse parens "" = .error ⟨.tooNested, ⟨1, 200⟩, ""⟩ := by decide +kernel
  have hsum : parse sum "" = .error ⟨.tooDeep, ⟨1, 4001⟩, ""⟩ := by decide +kernel
  have hsmall : parse small "(1\n+" = .error incomplete := by decide +kernel
  have hlength : small.length ≤ 2000 := by decide
  have hcount : small.countP (·.deepens) < 200 := by decide
  refine ⟨⟨hparens, ?_⟩, ⟨hsum, ?_⟩, hlength, hcount, hsmall, ?_⟩
  · exact ((limits_spare_small_programs parens "").1 _ hparens).1 rfl
  · exact ((limits_spare_small_programs sum "").1 _ hsum).2 rfl
  · exact (limits_spare_small_programs small "(1\n+").2 hlength hcount _ hsmall

end MlFront
