import MlFront.Proofs.Token.Render

/-!
# Where tokens start

The lexer counts lines as it goes on, in the lexemes that it drops and piece by piece.
The count is right as long as no break is cut in two and no token hides one. `Cuts` says
that of lexemes, the lexer's have it (`cuts_cutFrom`), and then the line of a token is
told by the breaks in front of it (`tokens_numbered`).
-/

namespace MlFront

/-- The lexemes, each with the number of characters in front of it, when there are `start`
in front of the first. -/
def Lexeme.placeFrom (start : Nat) : List Lexeme → List (Nat × Lexeme)
  | [] => []
  | lexeme :: rest => (start, lexeme) :: placeFrom (start + lexeme.text.length) rest

/-- The lexemes of a text that become tokens, each with the number of characters in front of it. -/
def tokenLexemes (code : List Char) : List (Nat × Lexeme) :=
  (Lexeme.placeFrom 0 (Lexeme.cut isNamePart code)).filter (!·.2.isDropped)

/-- The lexemes are pieces of the text, none of them empty. They cut no break in two, and
those that become tokens have none. -/
inductive Cuts : List Lexeme → List Char → Prop where
  | nil : Cuts [] []
  | cons {lexeme : Lexeme} {lexemes : List Lexeme} {rest : List Char} (nonempty : lexeme.text ≠ [])
      (whole : ¬ InsideBreak lexeme.text rest)
      (unbroken : lexeme.isDropped = false → Unbroken lexeme.text) (tail : Cuts lexemes rest) :
      Cuts (lexeme :: lexemes) (lexeme.text ++ rest)

/-! ## The lexer cuts between breaks -/

section Lexer

variable {c : Char}

theorem not_insideBreak_blanks (text : List Char) :
    ¬ InsideBreak (text.takeWhile isBlank) (text.dropWhile isBlank) := by
  rintro ⟨-, hhead⟩
  have hblank := List.head?_dropWhile_not isBlank text
  rw [hhead] at hblank
  exact absurd hblank (by decide)

theorem unbroken_token (text : List Char) : Unbroken (text.take (tokenReach text)) :=
  fun _ hmem => not_isBreak_of_not_isBlank (not_isBlank_of_mem_token hmem)

theorem unbroken_singleton (h : isBlank c = false) : Unbroken [c] :=
  List.forall_mem_singleton.mpr (not_isBreak_of_not_isBlank h)

/-- Where a lexeme is whole, the rest of the text is cut on its own. -/
theorem Cuts.of_take {lexeme : Lexeme} {lexemes : List Lexeme} {text : List Char} {count : Nat}
    (htext : lexeme.text = text.take count) (nonempty : lexeme.text ≠ [])
    (whole : ¬ InsideBreak (text.take count) (text.drop count))
    (unbroken : lexeme.isDropped = false → Unbroken lexeme.text)
    (tail : Cuts lexemes (text.drop count)) : Cuts (lexeme :: lexemes) text := by
  rw [← htext] at whole
  have hcuts := Cuts.cons nonempty whole unbroken tail
  rwa [htext, List.take_append_drop] at hcuts

theorem cuts_cutFrom {word : Char → Bool} (hword : ∀ c, isNamePart c = true → word c = true)
    (before : Option Char) (text : List Char) :
    Cuts (Lexeme.cutFrom word [] before text) text := by
  induction hn : text.length using Nat.strongRecOn generalizing before text with
  | _ n ih =>
    cases text with
    | nil =>
      rw [Lexeme.cutFrom]
      exact .nil
    | cons c rest =>
      have htail : ∀ count ≠ 0, ∀ before,
          Cuts (Lexeme.cutFrom word [] before ((c :: rest).drop count)) ((c :: rest).drop count) := by
        intro count hcount before
        refine ih _ ?_ before _ rfl
        rw [← hn, List.length_drop, List.length_cons]
        omega
      rcases LexClass.first?_cases hword before c rest with ⟨hfirst, hc⟩ | ⟨hfirst, hc, hreach⟩ |
        ⟨k, hfirst, hk, hreach, hsome⟩
      · have htake := take_length_takeWhile isBlank (c :: rest)
        rw [Lexeme.cutFrom_of_some hfirst, LexClass.reach]
        refine .of_take rfl ?_ ?_ (fun hkept => absurd hkept (by simp [Lexeme.isDropped]))
          (htail _ (by simp [hc]) _)
        · simp [hc]
        · rw [htake, drop_length_takeWhile]
          exact not_insideBreak_blanks (c :: rest)
      · have hunbroken := unbroken_singleton hc
        rw [Lexeme.cutFrom_of_none hfirst]
        exact .cons (List.cons_ne_nil c []) (hunbroken.not_insideBreak _) (fun _ => hunbroken)
          (htail 1 (by decide) _)
      · have hunbroken := unbroken_token (c :: rest)
        rw [Lexeme.cutFrom_of_some hfirst, hreach]
        exact .of_take rfl (by simpa using hsome) (hunbroken.not_insideBreak _)
          (fun _ => hunbroken) (htail _ hsome _)

end Lexer

/-! ## Counting along -/

section Count

variable {lexemes : List Lexeme} {text : List Char}

theorem Cuts.flatMap_text (h : Cuts lexemes text) : lexemes.flatMap (·.text) = text := by
  induction h with
  | nil => rfl
  | cons _ _ _ _ ih => rw [List.flatMap_cons, ih]

/-- A lexeme stands where its place says. -/
theorem Cuts.prefix_drop (h : Cuts lexemes text) (front : List Char) :
    ∀ placed ∈ Lexeme.placeFrom front.length lexemes,
      placed.2.text ≠ [] ∧ placed.2.text <+: (front ++ text).drop placed.1 := by
  induction h generalizing front with
  | nil => simp [Lexeme.placeFrom]
  | @cons lexeme lexemes rest hsome _ _ _ ih =>
    have hrest := ih (front ++ lexeme.text)
    rw [List.length_append, List.append_assoc] at hrest
    rw [Lexeme.placeFrom, List.forall_mem_cons, List.drop_left]
    exact ⟨⟨hsome, List.prefix_append _ _⟩, hrest⟩

/-- The count goes on from the breaks in front of a lexeme to those in front of the next. -/
theorem Cuts.ofLexemesFrom_eq (h : Cuts lexemes text) {front : List Char}
    (hfront : ¬ InsideBreak front text) :
    Token.ofLexemesFrom [] (1 + countBreaks front) lexemes =
      ((Lexeme.placeFrom front.length lexemes).filter (!·.2.isDropped)).map fun placed =>
        ⟨String.ofList placed.2.text, 1 + countBreaks ((front ++ text).take placed.1)⟩ := by
  induction h generalizing front with
  | nil => rfl
  | @cons lexeme lexemes rest hsome hwhole hunbroken _ ih =>
    have hlexeme : ¬ InsideBreak front lexeme.text := fun hin => hfront (hin.append_right rest)
    have hnext : ¬ InsideBreak (front ++ lexeme.text) rest := fun hin =>
      hwhole (hin.of_append_left hsome)
    have hrest := ih hnext
    rw [countBreaks_append hlexeme, List.length_append, List.append_assoc] at hrest
    rw [Lexeme.placeFrom, Token.ofLexemesFrom]
    split
    · next hdropped =>
      rw [List.filter_cons_of_neg (by simp [hdropped]), Nat.add_assoc]
      exact hrest
    · next hkept =>
      have hnone := (hunbroken (Bool.eq_false_iff.mpr hkept)).countBreaks_append []
      rw [List.append_nil, countBreaks_nil] at hnone
      rw [hnone, Nat.add_zero] at hrest
      rw [List.filter_cons_of_pos (by simp [hkept]), List.map_cons, Token.ofLexemesFrom_eq, hrest,
        List.take_left]
      rfl

end Count

/-- The lexemes of a source without comments, one behind the other, are the whole of it,
and those that are kept are its tokens. The line of a token is one more than the count of
breaks in front of the place where it starts, and so lines never go back up. -/
theorem tokens_numbered (source : String) :
    (Lexeme.cut isNamePart (stripComments source.toList)).flatMap (·.text) =
      stripComments source.toList ∧
    (∀ token ∈ tokenLexemes (stripComments source.toList),
      token.2.text ≠ [] ∧ token.2.text <+: (stripComments source.toList).drop token.1) ∧
    (tokenize source = (tokenLexemes (stripComments source.toList)).map fun token =>
      ⟨String.ofList token.2.text,
        1 + countBreaks ((stripComments source.toList).take token.1)⟩) ∧
    (tokenize source).Pairwise fun a b => a.line ≤ b.line := by
  have hcuts := cuts_cutFrom (fun _ h => h) none (stripComments source.toList)
  have hstart : ¬ InsideBreak [] (stripComments source.toList) := by simp [InsideBreak]
  refine ⟨hcuts.flatMap_text, fun token hmem => ?_, hcuts.ofLexemesFrom_eq hstart,
    (lexed_tokenize source).ordered⟩
  exact hcuts.prefix_drop [] token (List.mem_of_mem_filter hmem)

/-- A break is counted once, also where a character without a class stands in front of it. -/
example : tokenize "a#\r\nb\r\rc" = [⟨"a", 1⟩, ⟨"b", 2⟩, ⟨"c", 4⟩] := by
  decide +kernel

end MlFront
