import MlFront.Proofs.Error.Prefix
import MlFront.Proofs.Grammar.Settled

/-!
# An error at the end of the tokens means that the program is incomplete

The tokens in front of an error are the beginning of a program (`unfinished_of_parse_eq_error`),
and every program is parsed unless a limit is met (`Derives.parse_eq_ok_or_isInternal`). So
when the parser fails behind the last token, the tokens can be gone on with.
-/

namespace MlFront

open Grammar

/-- The tokens in front of an error can be completed to a program, of which the parser
refuses nothing but its size. -/
theorem exists_completion_of_take {tokens : List Token} {source : String} {error : Error}
    (h : parse tokens source = .error error) :
    ∃ (suffix : List Token) (levels : Nat) (node : Node),
      let program := tokens.take error.position.tokenIndex ++ suffix
      Derives .expression levels program node ∧
        ∀ source', parse program source' = .ok (some node) ∨
          ∃ error', parse program source' = .error error' ∧ error'.cause.isInternal = true := by
  obtain ⟨levels, suffix, node, hderives⟩ := (unfinished_of_parse_eq_error h).viable
  exact ⟨suffix, levels, node, hderives, hderives.parse_eq_ok_or_isInternal⟩

/-- A program that fails behind its last token is incomplete, whatever the error is: some
tokens make it a program of the grammar, and this one is parsed to its tree unless it meets
a limit. -/
theorem exists_completion {tokens : List Token} {source : String} {error : Error}
    (h : parse tokens source = .error error)
    (hend : error.position.tokenIndex = tokens.length) :
    ∃ (suffix : List Token) (levels : Nat) (node : Node),
      Derives .expression levels (tokens ++ suffix) node ∧
        ∀ source', parse (tokens ++ suffix) source' = .ok (some node) ∨
          ∃ error', parse (tokens ++ suffix) source' = .error error' ∧
            error'.cause.isInternal = true := by
  have hcompletion := exists_completion_of_take h
  rwa [hend, List.take_length] at hcompletion

/-- `let f = fn x -> (x +` waits for an operand, a parenthesis, an `in` and a body. -/
theorem exists_completion_let :
    let tokens := tokenize "let f =\nfn x -> (x +"
    let error : Error := ⟨.expectedRightOperand "+", ⟨2, 9⟩, "fn x -> (x +"⟩
    parse tokens "let f =\nfn x -> (x +" = .error error ∧
      error.position.tokenIndex = tokens.length ∧
      ∃ (suffix : List Token) (levels : Nat) (node : Node),
        Derives .expression levels (tokens ++ suffix) node ∧
          ∀ source', parse (tokens ++ suffix) source' = .ok (some node) ∨
            ∃ error', parse (tokens ++ suffix) source' = .error error' ∧
              error'.cause.isInternal = true := by
  intro tokens error
  have herror : parse tokens "let f =\nfn x -> (x +" = .error error := by decide +kernel
  have hend : error.position.tokenIndex = tokens.length := by decide +kernel
  exact ⟨herror, hend, exists_completion herror hend⟩

end MlFront
