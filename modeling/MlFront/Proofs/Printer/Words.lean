import MlFront.Proofs.Printer.Basic
import MlFront.Proofs.Token.Lines
import MlFront.Proofs.Token.Word

/-!
# Reading words between blanks

The texts of a print are words: each is one token for the lexer, and only its
first character may be a dash (`isWord_of_mem_print`). Words with a blank between
any two of them start no comment and are cut into the words again
(`tokenize_intercalate`).
-/

namespace MlFront

/-! ## Texts that are words -/

theorem isWord_of_spelling {text : String} (h : text ∈ Kind.spelled.map Prod.fst) : IsWord text :=
  isWord_iff.mpr (Kind.ofText_ne_unrecognised_iff.mpr (.inl h))

theorem isWord_of_isNameShaped {text : String} (h : isNameShaped text.toList = true) : IsWord text :=
  isWord_iff.mpr (Kind.ofText_ne_unrecognised_iff.mpr (.inr (.inl h)))

theorem isWord_of_isNumberShaped {text : String} (h : isNumberShaped text.toList = true) :
    IsWord text :=
  isWord_iff.mpr (Kind.ofText_ne_unrecognised_iff.mpr (.inr (.inr h)))

theorem isWord_of_boolean {text : String} (h : text ∈ ["true", "false"]) : IsWord text := by
  have hall : ∀ word ∈ ["true", "false"], word ∈ Kind.spelled.map Prod.fst := by decide
  exact isWord_of_spelling (hall text h)

theorem isWord_of_operator {text : String}
    (h : text ∈ ["==", "!=", "<", ">", "<=", ">=", "+", "-", "*", "/"]) : IsWord text := by
  have hall : ∀ word ∈ ["==", "!=", "<", ">", "<=", ">=", "+", "-", "*", "/"],
      word ∈ Kind.spelled.map Prod.fst := by decide
  exact isWord_of_spelling (hall text h)

theorem isWord_of_mem_write {slot : Slot} {node : Node}
    (h : ∀ word ∈ node.print, IsWord word) : ∀ word ∈ slot.write node node.print, IsWord word := by
  unfold Slot.write
  split
  · rw [List.forall_mem_cons, List.forall_mem_append, List.forall_mem_singleton]
    exact ⟨isWord_of_spelling (by decide), h, isWord_of_spelling (by decide)⟩
  · exact h

theorem isWord_of_mem_printAll {nodes : List Node}
    (h : ∀ node ∈ nodes, ∀ word ∈ node.print, IsWord word) :
    ∀ word ∈ Node.printAll nodes, IsWord word := by
  induction nodes with
  | nil => simp [Node.printAll]
  | cons node rest ih =>
    rw [List.forall_mem_cons] at h
    rw [Node.printAll, List.forall_mem_append]
    exact ⟨isWord_of_mem_write h.1, ih h.2⟩

theorem isWord_of_mem_print {node : Node} (hshaped : node.WellShaped) :
    ∀ word ∈ node.print, IsWord word := by
  induction hshaped with
  | number h => exact List.forall_mem_singleton.mpr (isWord_of_isNumberShaped h)
  | boolean h => exact List.forall_mem_singleton.mpr (isWord_of_boolean h)
  | identifier hname => exact List.forall_mem_singleton.mpr (isWord_of_isNameShaped hname)
  | binaryOp hoperator _ _ ihleft ihright =>
    rw [Node.print, List.forall_mem_append, List.forall_mem_cons]
    exact ⟨isWord_of_mem_write ihleft, isWord_of_operator hoperator, isWord_of_mem_write ihright⟩
  | function _ hparameters _ ihbody =>
    rw [Node.print, List.forall_mem_cons, List.forall_mem_append, List.forall_mem_cons]
    exact ⟨isWord_of_spelling (by decide),
      fun word hmem => isWord_of_isNameShaped (hparameters word hmem),
      isWord_of_spelling (by decide), ihbody⟩
  | application _ _ _ ihcallee iharguments =>
    rw [Node.print, List.forall_mem_append]
    exact ⟨isWord_of_mem_write ihcallee, isWord_of_mem_printAll iharguments⟩
  | letIn hname _ _ ihvalue ihbody =>
    simp only [Node.print, List.forall_mem_cons, List.forall_mem_append]
    exact ⟨isWord_of_spelling (by decide), isWord_of_isNameShaped hname,
      isWord_of_spelling (by decide), ihvalue, isWord_of_spelling (by decide), ihbody⟩
  | ifThenElse _ _ _ ihcondition ihthen ihelse =>
    simp only [Node.print, List.forall_mem_cons, List.forall_mem_append]
    exact ⟨isWord_of_spelling (by decide), ihcondition, isWord_of_spelling (by decide), ihthen,
      isWord_of_spelling (by decide), ihelse⟩

/-! ## Words between blanks -/

theorem toList_intercalate_cons (word next : String) (rest : List String) :
    (" ".intercalate (word :: next :: rest)).toList =
      word.toList ++ ' ' :: (" ".intercalate (next :: rest)).toList := by
  rw [String.intercalate_cons_cons, String.toList_append, String.toList_append, List.append_assoc]
  rfl

theorem stripComments_intercalate {words : List String} (h : ∀ word ∈ words, IsWord word) :
    stripComments (" ".intercalate words).toList = (" ".intercalate words).toList := by
  induction words with
  | nil => rfl
  | cons word rest ih =>
    obtain ⟨⟨-, -, hdash⟩, hrest⟩ := List.forall_mem_cons.mp h
    cases rest with
    | nil =>
      have hword : stripComments (word.toList ++ []) = word.toList ++ [] :=
        stripComments_word hdash (by simp)
      rw [List.append_nil] at hword
      rw [String.intercalate_singleton, hword]
    | cons next rest =>
      rw [toList_intercalate_cons, stripComments_word hdash (by simp),
        stripComments_cons (c := ' ') (fun hc => absurd hc (by decide)), ih hrest]

theorem scan_intercalate {words : List String} (h : ∀ word ∈ words, IsWord word) (line : Nat) :
    scan line (" ".intercalate words).toList = words.map (⟨·, line⟩) := by
  induction words with
  | nil => simp
  | cons word rest ih =>
    obtain ⟨hword, hrest⟩ := List.forall_mem_cons.mp h
    cases rest with
    | nil =>
      have hscan : scan line (word.toList ++ []) = ⟨word, line⟩ :: scan line [] :=
        scan_word hword (by simp) line
      rw [List.append_nil, scan_nil] at hscan
      rw [String.intercalate_singleton, hscan, List.map_singleton]
    | cons next rest =>
      rw [toList_intercalate_cons, scan_word hword (by simp; decide), scan_blank (by decide),
        endsBreak_of_not_isBreak (by decide), if_neg Bool.false_ne_true, ih hrest]
      rfl

theorem tokenize_intercalate {words : List String} (h : ∀ word ∈ words, IsWord word) :
    (tokenize (" ".intercalate words)).map (·.text) = words := by
  rw [tokenize_eq_scanSource, scanSource, stripComments_intercalate h]
  rw [scan_intercalate h, List.map_map]
  exact List.map_id _

end MlFront
