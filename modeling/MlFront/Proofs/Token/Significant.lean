import MlFront.Parser.Entry
import MlFront.Proofs.Token.Lines
import MlFront.Proofs.Token.Munch

/-!
# Significant characters

A character is significant when it makes a token on its own: a letter, `_`, a digit, or
a sign. In tokens stand only significant characters and the `.` of a number and the `!`
of `!=`, and what the lexer passes over is not significant. So the significant
characters of a text without comments are those of its tokens, in their order.
-/

namespace MlFront

/-- The characters of operators, save for `!`, and of punctuation. -/
def signs : List Char :=
  "+-*/=<>()\x7b\x7d[];,".toList

/-- Whether the character is an ASCII letter, `_`, a digit of some script or a sign. -/
def isSignificant (c : Char) : Bool :=
  c.isAlpha || c == '_' || isDigit c || signs.contains c

/-- Whether the character is not one of the two that stand in tokens without being
significant, the `.` of a number and the `!` of `!=`. -/
def isKept (c : Char) : Bool :=
  c != '.' && c != '!'

variable {c : Char} {chars text : List Char}

/-! ## Characters -/

theorem isSignificant_iff :
    isSignificant c = true ↔ isNameStart c = true ∨ isDigit c = true ∨ c ∈ signs := by
  simp [isSignificant, isNameStart, or_assoc]

theorem isSignificant_of_isNamePart (h : isNamePart c = true) : isSignificant c = true := by
  rw [isNamePart_eq, Bool.or_eq_true] at h
  rw [isSignificant_iff]
  exact h.imp_right fun hdigit => .inl (isDigit_of_ascii hdigit)

theorem not_isSignificant_of_isBlank (h : isBlank c = true) : isSignificant c = false := by
  have hsigns : signs.any isBlank = false := by decide
  refine Bool.eq_false_iff.mpr fun hsignificant => ?_
  rcases isSignificant_iff.mp hsignificant with hstart | hdigit | hsign
  · rw [not_isNameStart_of_isBlank h] at hstart
    cases hstart
  · rw [not_isDigit_of_isBlank h] at hdigit
    cases hdigit
  · exact List.any_eq_false.mp hsigns c hsign h

/-- A significant character is a token on its own. -/
theorem hasKind_of_isSignificant (h : isSignificant c = true) :
    Kind.ofText (String.ofList [c]) ≠ .unrecognised := by
  have hsigns : signs.map (fun d => [d]) ⊆ operatorSpellings ++ punctuationSpellings := by decide
  rw [hasKind_iff]
  rcases isSignificant_iff.mp h with hstart | hdigit | hsign
  · exact .inr (.inl (by simp [isNameShaped, hstart]))
  · exact .inr (.inr (.inl (isNumberShaped_iff.mpr (.inl (by simpa using hdigit)))))
  · have hmem := List.mem_append.mp (hsigns (List.mem_map_of_mem hsign))
    exact hmem.imp_right fun hpunctuation => .inr (.inr hpunctuation)

theorem isKept_of_isSignificant (h : isSignificant c = true) : isKept c = true := by
  have hpoint : isSignificant '.' = false := by decide
  have hbang : isSignificant '!' = false := by decide
  unfold isKept
  rw [Bool.and_eq_true, bne_iff_ne, bne_iff_ne]
  constructor
  · rintro rfl
    rw [hpoint] at h
    cases h
  · rintro rfl
    rw [hbang] at h
    cases h

/-! ## Characters of a token -/

theorem isNamePart_of_mem (hname : isNameShaped chars = true) (hmem : c ∈ chars) :
    isNamePart c = true := by
  cases chars with
  | nil => cases hmem
  | cons d rest =>
    simp only [isNameShaped, Bool.and_eq_true, List.all_eq_true] at hname
    rcases List.mem_cons.mp hmem with rfl | hrest
    · rw [isNamePart_eq, hname.1, Bool.true_or]
    · exact hname.2 c hrest

/-- In a number stand digits, and perhaps a point. -/
theorem isDigit_of_mem_number (hnumber : isNumberShaped chars = true) (hmem : c ∈ chars) :
    isDigit c = true ∨ c = '.' := by
  rcases isNumberShaped_iff.mp hnumber with ⟨-, hall⟩ | ⟨whole, fraction, rfl, -, -, hw, hf⟩
  · exact .inl (hall c hmem)
  · rcases List.mem_append.mp hmem with hwhole | hrest
    · exact .inl (hw c hwhole)
    · rcases List.mem_cons.mp hrest with rfl | hfraction
      · exact .inr rfl
      · exact .inl (hf c hfraction)

/-- The characters of a token are significant, all but the `.` and the `!` in it. -/
theorem isKept_eq_isSignificant (h : Kind.ofText (String.ofList chars) ≠ .unrecognised)
    (hmem : c ∈ chars) : isKept c = isSignificant c := by
  have hspelled : ∀ s ∈ operatorSpellings ++ punctuationSpellings,
      s.map isKept = s.map isSignificant := by decide
  have hkept : isSignificant c = true → isKept c = isSignificant c := fun hc => by
    rw [isKept_of_isSignificant hc, hc]
  rcases hasKind_iff.mp h with hs | hname | hnumber | hs
  · exact List.map_inj_left.mp (hspelled chars (List.mem_append_left _ hs)) c hmem
  · exact hkept (isSignificant_of_isNamePart (isNamePart_of_mem hname hmem))
  · rcases isDigit_of_mem_number hnumber hmem with hdigit | rfl
    · exact hkept (isSignificant_iff.mpr (.inr (.inl hdigit)))
    · decide
  · exact List.map_inj_left.mp (hspelled chars (List.mem_append_right _ hs)) c hmem

/-- There is a significant character in a token. -/
theorem exists_isSignificant (h : Kind.ofText (String.ofList chars) ≠ .unrecognised) :
    ∃ c ∈ chars, isSignificant c = true := by
  have hspelled : ∀ s ∈ operatorSpellings ++ punctuationSpellings,
      s.any isSignificant = true := by decide
  have hdigit : ∀ {d}, isDigit d = true → isSignificant d = true :=
    fun hd => isSignificant_iff.mpr (.inr (.inl hd))
  rcases hasKind_iff.mp h with hs | hname | hnumber | hs
  · exact List.any_eq_true.mp (hspelled chars (List.mem_append_left _ hs))
  · cases chars with
    | nil => cases hname
    | cons d rest =>
      have hmem : d ∈ d :: rest := List.mem_cons_self
      exact ⟨d, hmem, isSignificant_of_isNamePart (isNamePart_of_mem hname hmem)⟩
  · rcases isNumberShaped_iff.mp hnumber with ⟨hsome, hall⟩ | ⟨whole, fraction, rfl, hsome, -, hw, -⟩
    · obtain ⟨d, hmem⟩ := List.exists_mem_of_ne_nil chars hsome
      exact ⟨d, hmem, hdigit (hall d hmem)⟩
    · obtain ⟨d, hmem⟩ := List.exists_mem_of_ne_nil whole hsome
      exact ⟨d, List.mem_append_left _ hmem, hdigit (hw d hmem)⟩
  · exact List.any_eq_true.mp (hspelled chars (List.mem_append_right _ hs))

/-! ## Scans -/

/-- What the lexer passes over is not significant. -/
theorem not_isSignificant_of_tokenReach (h : tokenReach (c :: text) = 0) :
    isSignificant c = false := by
  refine Bool.eq_false_iff.mpr fun hc => ?_
  have hprefix : [c] <+: c :: text := ⟨text, rfl⟩
  have hle := le_tokenReach hprefix (hasKind_of_isSignificant hc)
  rw [h] at hle
  exact absurd hle (by simp)

theorem filter_scan (line : Nat) (text : List Char) :
    ((scan line text).flatMap (·.text.toList)).filter isKept = text.filter isSignificant := by
  induction text using scan_induction generalizing line with
  | nil => simp
  | blank c rest hc ih =>
    rw [scan_blank hc, ih, List.filter_cons_of_neg]
    simp [not_isSignificant_of_isBlank hc]
  | skip c rest hc hreach ih =>
    rw [scan_skip hc hreach, ih, List.filter_cons_of_neg]
    simp [not_isSignificant_of_tokenReach hreach]
  | token c rest hc hreach ih =>
    have htoken : ((c :: rest).take (tokenReach (c :: rest))).filter isKept =
        ((c :: rest).take (tokenReach (c :: rest))).filter isSignificant :=
      List.filter_congr fun d hmem => isKept_eq_isSignificant (hasKind_tokenReach hreach) hmem
    rw [scan_token hc hreach, List.flatMap_cons, String.toList_ofList, List.filter_append, ih,
      htoken, ← List.filter_append, List.take_append_drop]

theorem scan_eq_nil_iff (line : Nat) (text : List Char) :
    scan line text = [] ↔ ∀ c ∈ text, isSignificant c = false := by
  induction text using scan_induction generalizing line with
  | nil => simp
  | blank c rest hc ih =>
    rw [scan_blank hc, ih, List.forall_mem_cons]
    exact (and_iff_right (not_isSignificant_of_isBlank hc)).symm
  | skip c rest hc hreach ih =>
    rw [scan_skip hc hreach, ih, List.forall_mem_cons]
    exact (and_iff_right (not_isSignificant_of_tokenReach hreach)).symm
  | token c rest hc hreach ih =>
    obtain ⟨d, hmem, hd⟩ := exists_isSignificant (hasKind_tokenReach hreach)
    rw [scan_token hc hreach]
    refine iff_of_false (List.cons_ne_nil _ _) fun hall => ?_
    rw [hall d (List.mem_of_mem_take hmem)] at hd
    cases hd

/-! ## Sources -/

theorem parseTokens_eq_none_iff {tokens : List Token} :
    parseTokens tokens = .ok none ↔ tokens = [] := by
  unfold parseTokens
  split
  · next hnone => simpa using List.isEmpty_iff.mp hnone
  · next hsome =>
    rw [List.isEmpty_iff] at hsome
    refine iff_of_false ?_ hsome
    split <;> simp

theorem parse_eq_none_iff {tokens : List Token} {source : String} :
    parse tokens source = .ok none ↔ tokens = [] := by
  rw [← parseTokens_eq_none_iff]
  unfold parse
  cases parseTokens tokens <;> simp [Except.mapError]

/-- The texts of the tokens without `.` and `!` are the significant characters of the
source without comments, and there is no program just when there is none of these. -/
theorem significant_kept (source : String) :
    ((tokenize source).flatMap (·.text.toList)).filter (fun c => c != '.' && c != '!') =
        (stripComments source.toList).filter isSignificant ∧
      (parseSource source = .ok none ↔
        ∀ c ∈ stripComments source.toList, isSignificant c = false) := by
  rw [parseSource, parse_eq_none_iff, tokenize_eq_scanSource, scanSource]
  exact ⟨filter_scan 1 _, scan_eq_nil_iff 1 _⟩

/-- The `.` of `2.5` is in its token, and neither the `!` nor the `#` is in one. -/
example : ((tokenize "f 2.5 !#x").flatMap (·.text.toList)).filter isKept = "f25x".toList := by
  decide +kernel

end MlFront
