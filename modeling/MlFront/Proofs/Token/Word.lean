import MlFront.Proofs.Token.Munch

/-!
# Words

The lexer reads a text as one token just when the text has a kind (`isWord_iff`).
Such a word starts no comment and is read as a token of its own wherever a blank or
the end of the text stands behind it.
-/

namespace MlFront

/-- The text is one token, with a dash at most in front. -/
def IsWord (text : String) : Prop :=
  text.toList ≠ [] ∧ tokenReach text.toList = text.toList.length ∧ '-' ∉ text.toList.tail

/-- Only at its front a text with a kind has a dash. -/
theorem not_mem_tail_of_hasKind {chars : List Char}
    (h : Kind.ofText (String.ofList chars) ≠ .unrecognised) : '-' ∉ chars.tail := by
  have htables : ∀ s ∈ operatorSpellings ++ punctuationSpellings, '-' ∉ s.tail := by decide
  have hdigit : isDigit '-' = false := by decide
  intro hmem
  rcases hasKind_iff.mp h with hs | hname | hnumber | hs
  · exact htables chars (List.mem_append_left _ hs) hmem
  · cases chars with
    | nil => cases hname
    | cons c more =>
      simp only [isNameShaped, Bool.and_eq_true, List.all_eq_true] at hname
      exact absurd (hname.2 '-' hmem) (by decide)
  · have hdigits : ∀ c ∈ chars, isDigit c = true ∨ c = '.' := by
      intro c hc
      rcases isNumberShaped_iff.mp hnumber with ⟨-, hall⟩ | ⟨whole, fraction, rfl, -, -, hw, hf⟩
      · exact .inl (hall c hc)
      · rcases List.mem_append.mp hc with hc | hc
        · exact .inl (hw c hc)
        · exact (List.mem_cons.mp hc).symm.imp_left (hf c)
    rcases hdigits '-' (List.mem_of_mem_tail hmem) with hc | hc
    · rw [hdigit] at hc; cases hc
    · cases hc
  · exact htables chars (List.mem_append_right _ hs) hmem

theorem isWord_iff {text : String} : IsWord text ↔ Kind.ofText text ≠ .unrecognised := by
  constructor
  · rintro ⟨hsome, hreach, -⟩
    have hkind : Kind.ofText (String.ofList (text.toList.take (tokenReach text.toList))) ≠
        .unrecognised := hasKind_tokenReach (by simpa [hreach] using hsome)
    rwa [hreach, List.take_length, String.ofList_toList] at hkind
  · intro hkind
    have hkind' : Kind.ofText (String.ofList text.toList) ≠ .unrecognised := by
      rwa [String.ofList_toList]
    refine ⟨fun hnil => ?_, ?_, not_mem_tail_of_hasKind hkind'⟩
    · rw [hnil] at hkind'
      exact hkind' (by decide)
    · exact Nat.le_antisymm (tokenReach_le _) (le_tokenReach List.prefix_rfl hkind')

/-- No comment starts in a word that no dash follows. -/
theorem stripComments_word {chars rest : List Char} (h : '-' ∉ chars.tail)
    (hrest : rest.head? ≠ some '-') :
    stripComments (chars ++ rest) = chars ++ stripComments rest := by
  induction chars with
  | nil => rfl
  | cons c more ih =>
    rw [List.tail_cons] at h
    have hhead : (more ++ rest).head? ≠ some '-' := by
      cases more with
      | nil => exact hrest
      | cons d more =>
        rintro ⟨⟩
        exact h List.mem_cons_self
    rw [List.cons_append, stripComments_cons fun _ => hhead,
      ih fun hmem => h (List.mem_of_mem_tail hmem), List.cons_append]

/-- A word in front of a blank, or of nothing, is scanned as one token. -/
theorem scan_word {word : String} (h : IsWord word) {rest : List Char}
    (hrest : ∀ d ∈ rest.head?, isBlank d = true) (line : Nat) :
    scan line (word.toList ++ rest) = ⟨word, line⟩ :: scan line rest := by
  obtain ⟨hsome, hreach, -⟩ := h
  have hreach' : tokenReach (word.toList ++ rest) = word.toList.length := by
    cases rest with
    | nil => rw [List.append_nil, hreach]
    | cons d rest => rw [tokenReach_append _ _ (hrest d rfl), hreach]
  have htake : (word.toList ++ rest).take (tokenReach (word.toList ++ rest)) = word.toList := by
    rw [hreach', List.take_left]
  obtain ⟨c, more, hchars⟩ := List.exists_cons_of_ne_nil hsome
  have hmem : c ∈ (word.toList ++ rest).take (tokenReach (word.toList ++ rest)) := by
    rw [htake, hchars]
    exact List.mem_cons_self
  have hc : isBlank c = false := not_isBlank_of_mem_token hmem
  have htoken : scan line (word.toList ++ rest) =
      ⟨String.ofList ((word.toList ++ rest).take (tokenReach (word.toList ++ rest))), line⟩ ::
        scan line ((word.toList ++ rest).drop (tokenReach (word.toList ++ rest))) := by
    rw [hchars, List.cons_append] at hreach' ⊢
    exact scan_token hc (by simp [hreach'])
  rw [htoken, htake, hreach', List.drop_left, String.ofList_toList]

end MlFront
