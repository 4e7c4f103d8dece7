import MlFront.Proofs.Grammar.Complete
import MlFront.Proofs.Printer.Nesting
import MlFront.Proofs.Printer.Words

/-!
# The trees that programs have

A tree is the tree of some program just when it is `Node.Printable`: built by the
functions that make nodes, with well shaped texts in it, within the two limits,
and with no expression in its print that starts with a name that starts a form. It
is then the tree of its own print, as tokens and as a source.
-/

namespace MlFront.Grammar

variable {category : Category} {levels : Nat} {tokens : List Token} {node : Node}

theorem Derives.built (h : Derives category levels tokens node) : node.Built := by
  induction h with
  | letIn _ _ _ _ _ _ ihvalue ihbody => exact .letBind ihvalue ihbody
  | ifThenElse _ _ _ _ _ _ ihcondition ihfirst ihlast => exact .branch ihcondition ihfirst ihlast
  | function _ _ _ _ _ ihbody => exact .lambda ihbody
  | binary _ _ _ ihleft ihright => exact .binary ihleft ihright
  | apply _ _ _ _ ihcallee iharguments =>
    exact .apply ihcallee (List.forall_mem_map.mpr iharguments)
  | number | boolean => exact .literal
  | name => exact .identifier
  | operation _ _ ih | tighter _ _ ih | operand _ ih | callee _ ih | group _ _ _ ih => exact ih

theorem mem_operators {operator : String} {power : Power} (h : operator ∈ operators power) :
    operator ∈ ["==", "!=", "<", ">", "<=", ">=", "+", "-", "*", "/"] := by
  cases power <;> simp only [operators, List.mem_cons, List.not_mem_nil, or_false] at h ⊢ <;> grind

theorem Derives.wellShaped (h : Derives category levels tokens node) : node.WellShaped := by
  induction h with
  | letIn _ hname _ _ _ _ ihvalue ihbody => exact .letIn hname ihvalue ihbody
  | ifThenElse _ _ _ _ _ _ ihcondition ihfirst ihlast =>
    exact .ifThenElse ihcondition ihfirst ihlast
  | function _ hsome hparameters _ _ ihbody =>
    exact .function (by simpa using hsome) (List.forall_mem_map.mpr hparameters) ihbody
  | binary _ hoperator _ ihleft ihright => exact .binaryOp (mem_operators hoperator) ihleft ihright
  | apply _ hsome _ _ ihcallee iharguments =>
    exact .application ihcallee (by simpa using hsome) (List.forall_mem_map.mpr iharguments)
  | number h => exact .number h
  | boolean h => exact .boolean h
  | name hname hword => exact .identifier hname hword
  | operation _ _ ih | tighter _ _ ih | operand _ ih | callee _ ih | group _ _ _ ih => exact ih

/-- A tree that some program has can be printed. -/
theorem printable_of_parse {source : String} (h : parse tokens source = .ok (some node)) :
    node.Printable := by
  rw [parse_eq_ok_iff, parseTokens_eq_ok_iff] at h
  obtain ⟨program, rest, -, -, hderives, hdepth⟩ := h
  have hfits : ∀ expression ∈ node.expressions, Fits (0 + maxNesting) expression :=
    FitsAlone.fits hderives.fitting 0
  rw [Nat.zero_add] at hfits
  exact ⟨hderives.built, hderives.wellShaped, fun expression hmem => (hfits expression hmem).2,
    fun expression hmem => (hfits expression hmem).1, hdepth⟩

/-- A tree that can be printed is the tree of its print. -/
theorem parse_print (h : node.Printable) (htexts : tokens.map (·.text) = node.print)
    (source : String) : parse tokens source = .ok (some node) := by
  have hfits : ∀ expression ∈ node.expressions, Fits (0 + maxNesting) expression := by
    rw [Nat.zero_add]
    exact fun expression hmem => ⟨h.nesting expression hmem, h.noOpener expression hmem⟩
  have hderives : Derives .expression maxNesting tokens node :=
    (readsBack h.built h.wellShaped).inside h.wellShaped hfits htexts
  rw [parse_eq_ok_iff, parseTokens_eq_ok_iff]
  exact ⟨tokens, [], (List.append_nil tokens).symm, by simp, hderives, h.depth⟩

theorem parseSource_print (h : node.Printable) :
    parseSource (" ".intercalate node.print) = .ok (some node) :=
  parse_print h (tokenize_intercalate (isWord_of_mem_print h.wellShaped)) _

/-- The sum is an operand of a tighter operator, and `in` ends no run of arguments. -/
example : (Node.binary "*" (.binary "+" (.identifier "a") (.literal .number "1"))
    (.apply (.identifier "f") [.identifier "in", .identifier "x"])).print =
      ["(", "a", "+", "1", ")", "*", "f", "(", "in", ")", "x"] := by decide

/-- Some program has the tree just when the tree can be printed, just when tokens
with the texts of its print have it, and just when its print as a source has it. -/
theorem parse_image_iff (node : Node) :
    ((∃ tokens source, parse tokens source = .ok (some node)) ↔ node.Printable) ∧
      (node.Printable ↔ ∀ tokens source, tokens.map (·.text) = node.print →
        parse tokens source = .ok (some node)) ∧
      (node.Printable ↔ parseSource (" ".intercalate node.print) = .ok (some node)) := by
  refine ⟨⟨fun ⟨_, _, h⟩ => printable_of_parse h, fun h => ⟨_, _, parseSource_print h⟩⟩,
    ⟨fun h _ source htexts => parse_print h htexts source, fun h => ?_⟩,
    ⟨parseSource_print, printable_of_parse⟩⟩
  refine printable_of_parse (h (node.print.map fun text => ⟨text, 1⟩) "" ?_)
  rw [List.map_map]
  exact List.map_id _

end MlFront.Grammar
