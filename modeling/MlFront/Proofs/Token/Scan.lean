import Mathlib.Data.List.Find
import MlFront.Proofs.Text.Lines
import MlFront.Proofs.Token.Spelling
import MlFront.Token.Lexer

/-!
# A scanner without lexemes

`scan` reads tokens off a text directly: blanks move the line number on, the
characters that no class of tokens takes are skipped, and `tokenReach` says how
long a token is. It knows nothing of keywords, of word boundaries or of the
character before. `tokenizeCode_eq_scan`: the lexer finds the same tokens, on the
same lines, as long as the parts of identifiers count as parts of words.

A blank ends every token, so a text can be scanned in pieces (`scan_append`).
-/

namespace MlFront

/-! ## Blanks are in no token -/

section Blank

variable {d : Char}

theorem not_isDigit_of_isBlank (h : isBlank d = true) : isDigit d = false := by
  refine Bool.eq_false_iff.mpr fun hdigit => ?_
  obtain ⟨blank, hblank, hlo, hhi⟩ := CharRange.cover_iff.mp h
  obtain ⟨digit, hmem, hlo', hhi'⟩ := CharRange.cover_iff.mp hdigit
  have hapart : ∀ b ∈ blankRanges, ∀ r ∈ digitRanges, b.last < r.first ∨ r.last < b.first := by
    decide
  have := hapart blank hblank digit hmem
  omega

theorem not_isNameStart_of_isBlank (h : isBlank d = true) : isNameStart d = false := by
  refine Bool.eq_false_iff.mpr fun hstart => ?_
  obtain ⟨blank, hblank, hlo, hhi⟩ := CharRange.cover_iff.mp h
  have hapart : ∀ b ∈ blankRanges, b.last < 0x41 ∨ 0x7A < b.first := by decide
  have := hapart blank hblank
  have := isNameStart_toNat hstart
  omega

theorem isNamePart_eq (c : Char) : isNamePart c = (isNameStart c || c.isDigit) := by
  rw [isNamePart, isNameStart, Char.isAlphanum, Bool.or_right_comm]

theorem not_isNamePart_of_isBlank (h : isBlank d = true) : isNamePart d = false := by
  have hnot := not_isDigit_of_isBlank h
  have hdigit : d.isDigit = false := by
    refine Bool.eq_false_iff.mpr fun hd => ?_
    rw [isDigit_of_ascii hd] at hnot
    cases hnot
  rw [isNamePart_eq, not_isNameStart_of_isBlank h, hdigit, Bool.or_self]

theorem not_mem_spelling_of_isBlank (h : isBlank d = true) {text : String} {kind : Kind}
    (hmem : (text, kind) ∈ Kind.spelled) : d ∉ text.toList := by
  intro hd
  have hall : (Kind.spelled.all fun entry => entry.1.toList.all fun c => !isBlank c) = true := by
    decide
  have hblank := List.all_eq_true.mp (List.all_eq_true.mp hall _ hmem) d hd
  rw [h] at hblank
  cases hblank

end Blank

/-! ## Reaches in front of a blank -/

section Reach

variable {p : Char → Bool} {d : Char} {text rest : List Char}

theorem takeWhile_append_of_not (h : p d = false) :
    (text ++ d :: rest).takeWhile p = text.takeWhile p := by
  induction text with
  | nil => simp [h]
  | cons c text ih => by_cases hc : p c = true <;> simp [hc, ih]

theorem dropWhile_append_of_not (h : p d = false) :
    (text ++ d :: rest).dropWhile p = text.dropWhile p ++ d :: rest := by
  induction text with
  | nil => simp [h]
  | cons c text ih => by_cases hc : p c = true <;> simp [hc, ih]

theorem isPrefixOf_append_of_not_mem {s : List Char} (h : d ∉ s) :
    s.isPrefixOf (text ++ d :: rest) = s.isPrefixOf text := by
  induction s generalizing text with
  | nil => simp
  | cons c s ih =>
    simp only [List.mem_cons, not_or] at h
    cases text with
    | nil => simp [List.isPrefixOf, Ne.symm h.1]
    | cons c' text => simp [List.isPrefixOf, ih h.2]

theorem reachOfSpelling_append {table : List (String × Kind)}
    (h : ∀ entry ∈ table, d ∉ entry.1.toList) :
    reachOfSpelling (fun _ _ => true) (spellings table) (text ++ d :: rest) =
      reachOfSpelling (fun _ _ => true) (spellings table) text := by
  have hfind : (spellings table).find? (fun s => s.isPrefixOf (text ++ d :: rest) && true) =
      (spellings table).find? (fun s => s.isPrefixOf text && true) := by
    refine List.find?_congr fun s hs => ?_
    obtain ⟨entry, hmem, rfl⟩ := List.mem_map.mp hs
    rw [isPrefixOf_append_of_not_mem (h entry hmem)]
  rw [reachOfSpelling, reachOfSpelling, hfind]

/-- No spelling is found in front of a character that none of them starts with. -/
theorem reachOfSpelling_eq_zero {c : Char} {table : List (List Char)}
    (h : ∀ s ∈ table, s.head?.any p = false ∧ s ≠ []) (hc : p c = true) :
    reachOfSpelling (fun _ _ => true) table (c :: rest) = 0 := by
  unfold reachOfSpelling
  split
  · next s hfind =>
    have hpass := List.find?_some hfind
    obtain ⟨hd, hsome⟩ := h s (List.mem_of_find?_eq_some hfind)
    obtain ⟨d, more, rfl⟩ := List.exists_cons_of_ne_nil hsome
    rw [Bool.and_true, List.isPrefixOf_iff_prefix, List.cons_prefix_cons] at hpass
    rw [hpass.1, List.head?_cons, Option.any_some, hc] at hd
    cases hd
  · rfl

theorem reachIdentifier_append (h : isBlank d = true) :
    LexClass.reachIdentifier (text ++ d :: rest) = LexClass.reachIdentifier text := by
  cases text with
  | nil => simp [LexClass.reachIdentifier, not_isNameStart_of_isBlank h]
  | cons c text =>
    simp [LexClass.reachIdentifier, takeWhile_append_of_not (not_isNamePart_of_isBlank h)]

theorem reachNumber_append (h : isBlank d = true) :
    LexClass.reachNumber (text ++ d :: rest) = LexClass.reachNumber text := by
  have hdigit := not_isDigit_of_isBlank h
  have hpoint : d ≠ '.' := by
    rintro rfl
    cases h
  rw [LexClass.reachNumber, LexClass.reachNumber, takeWhile_append_of_not hdigit,
    dropWhile_append_of_not hdigit]
  cases text.dropWhile isDigit with
  | nil => simp [hpoint]
  | cons c fraction =>
    by_cases hc : c = '.'
    · subst hc
      simp [takeWhile_append_of_not hdigit]
    · simp [hc]

end Reach

/-! ## The scanner -/

/-- The classes that make tokens. A keyword is also an identifier. -/
def tokenClasses : List LexClass :=
  [.operator, .identifier, .number, .punctuation]

/-- How long the token is that the text starts with; 0 when it starts with none. -/
def tokenReach (text : List Char) : Nat :=
  (tokenClasses.find? fun k => k.reach isNamePart none text != 0).elim 0
    (·.reach isNamePart none text)

theorem tokenReach_append (text rest : List Char) {d : Char} (h : isBlank d = true) :
    tokenReach (text ++ d :: rest) = tokenReach text := by
  have hreach : ∀ k ∈ tokenClasses,
      k.reach isNamePart none (text ++ d :: rest) = k.reach isNamePart none text := by
    intro k hk
    simp only [tokenClasses, List.mem_cons, List.not_mem_nil, or_false] at hk
    rcases hk with rfl | rfl | rfl | rfl
    · exact reachOfSpelling_append fun entry hmem =>
        not_mem_spelling_of_isBlank h (List.mem_append_left _ (List.mem_append_right _ hmem))
    · exact reachIdentifier_append h
    · exact reachNumber_append h
    · exact reachOfSpelling_append fun entry hmem =>
        not_mem_spelling_of_isBlank h (List.mem_append_right _ hmem)
  have hfind : tokenClasses.find? (fun k => k.reach isNamePart none (text ++ d :: rest) != 0) =
      tokenClasses.find? (fun k => k.reach isNamePart none text != 0) :=
    List.find?_congr fun k hk => by rw [hreach k hk]
  rw [tokenReach, tokenReach, hfind]
  cases hk : tokenClasses.find? (fun k => k.reach isNamePart none text != 0) with
  | none => rfl
  | some k => exact hreach k (List.mem_of_find?_eq_some hk)

/-- The tokens of a text that starts on the given line. -/
def scan (line : Nat) : List Char → List Token
  | [] => []
  | c :: rest =>
    if isBlank c then scan (if endsBreak c rest then line + 1 else line) rest
    else if tokenReach (c :: rest) = 0 then scan line rest
    else
      ⟨String.ofList ((c :: rest).take (tokenReach (c :: rest))), line⟩ ::
        scan line (rest.drop (tokenReach (c :: rest) - 1))
  termination_by text => text.length
  decreasing_by all_goals simp; try omega

section Scan

variable {line : Nat} {c : Char} {rest : List Char}

@[simp] theorem scan_nil : scan line [] = [] := by
  rw [scan]

theorem scan_blank (h : isBlank c = true) :
    scan line (c :: rest) = scan (if endsBreak c rest then line + 1 else line) rest := by
  rw [scan, if_pos h]

theorem scan_skip (h : isBlank c = false) (hreach : tokenReach (c :: rest) = 0) :
    scan line (c :: rest) = scan line rest := by
  rw [scan, if_neg (by simp [h]), if_pos hreach]

theorem scan_token (h : isBlank c = false) (hreach : tokenReach (c :: rest) ≠ 0) :
    scan line (c :: rest) =
      ⟨String.ofList ((c :: rest).take (tokenReach (c :: rest))), line⟩ ::
        scan line ((c :: rest).drop (tokenReach (c :: rest))) := by
  obtain ⟨n, hn⟩ := Nat.exists_eq_succ_of_ne_zero hreach
  rw [scan, if_neg (by simp [h]), if_neg hreach, hn]
  rfl

end Scan

/-! ## Scanning in pieces -/

theorem scan_induction {P : List Char → Prop} (nil : P [])
    (blank : ∀ c rest, isBlank c = true → P rest → P (c :: rest))
    (skip : ∀ c rest, isBlank c = false → tokenReach (c :: rest) = 0 → P rest → P (c :: rest))
    (token : ∀ c rest, isBlank c = false → tokenReach (c :: rest) ≠ 0 →
      P ((c :: rest).drop (tokenReach (c :: rest))) → P (c :: rest)) (text : List Char) : P text := by
  induction hn : text.length using Nat.strongRecOn generalizing text with
  | _ n ih =>
    cases text with
    | nil => exact nil
    | cons c rest =>
      have hrest : P rest := ih _ (by simp [← hn]) rest rfl
      by_cases hc : isBlank c = true
      · exact blank c rest hc hrest
      · by_cases hreach : tokenReach (c :: rest) = 0
        · exact skip c rest (Bool.eq_false_iff.mpr hc) hreach hrest
        · refine token c rest (Bool.eq_false_iff.mpr hc) hreach (ih _ ?_ _ rfl)
          rw [← hn, List.length_drop, List.length_cons]
          omega

theorem reachOfSpelling_le (table : List (List Char)) (text : List Char) :
    reachOfSpelling (fun _ _ => true) table text ≤ text.length := by
  rw [reachOfSpelling]
  split
  · next s h =>
    have hprefix := List.find?_some h
    rw [Bool.and_true, List.isPrefixOf_iff_prefix] at hprefix
    exact hprefix.length_le
  · exact Nat.zero_le _

theorem reachIdentifier_le (text : List Char) : LexClass.reachIdentifier text ≤ text.length := by
  cases text with
  | nil => exact Nat.le_refl _
  | cons c rest =>
    have := (List.takeWhile_sublist isNamePart (l := rest)).length_le
    simp only [LexClass.reachIdentifier, List.length_cons]
    split <;> omega

theorem reachNumber_le (text : List Char) : LexClass.reachNumber text ≤ text.length := by
  have hsplit := congrArg List.length (List.takeWhile_append_dropWhile (p := isDigit) (l := text))
  rw [List.length_append] at hsplit
  simp only [LexClass.reachNumber]
  split
  · next rest hrest =>
    have := (List.takeWhile_sublist isDigit (l := rest)).length_le
    rw [hrest, List.length_cons] at hsplit
    split <;> omega
  · omega

theorem tokenReach_le (text : List Char) : tokenReach text ≤ text.length := by
  rw [tokenReach]
  cases hk : tokenClasses.find? (fun k => k.reach isNamePart none text != 0) with
  | none => exact Nat.zero_le _
  | some k =>
    have hmem := List.mem_of_find?_eq_some hk
    simp only [tokenClasses, List.mem_cons, List.not_mem_nil, or_false] at hmem
    rcases hmem with rfl | rfl | rfl | rfl
    · exact reachOfSpelling_le _ _
    · exact reachIdentifier_le text
    · exact reachNumber_le text
    · exact reachOfSpelling_le _ _

/-- There is no blank in a token. -/
theorem not_isBlank_of_mem_token {text : List Char} {c : Char}
    (h : c ∈ text.take (tokenReach text)) : isBlank c = false := by
  refine Bool.eq_false_iff.mpr fun hblank => ?_
  obtain ⟨front, back, hsplit⟩ := List.append_of_mem h
  have htext : text = front ++ c :: (back ++ text.drop (tokenReach text)) := by
    calc text = text.take (tokenReach text) ++ text.drop (tokenReach text) :=
          (List.take_append_drop _ _).symm
      _ = _ := by rw [hsplit, List.append_assoc, List.cons_append]
  have hreach : tokenReach text = tokenReach front := by
    rw [htext, tokenReach_append _ _ hblank]
  have hlength := congrArg List.length hsplit
  have := tokenReach_le front
  have := tokenReach_le text
  simp only [List.length_take, List.length_append, List.length_cons] at hlength
  omega

/-- A blank ends what is scanned before it, and only the line is handed on. -/
theorem scan_append {d : Char} (hd : isBlank d = true) (line : Nat) (front rest : List Char) :
    scan line (front ++ d :: rest) =
      scan line front ++ scan (line + (countBreaks (front ++ d :: rest) - countBreaks rest)) rest := by
  induction front using scan_induction generalizing line with
  | nil =>
    rw [List.nil_append, scan_blank hd, countBreaks_cons]
    split <;> simp
  | blank c front hc ih =>
    have hle := countBreaks_le_append (front ++ [d]) rest
    rw [List.append_assoc, List.singleton_append] at hle
    have hfront : scan (if endsBreak c (front ++ d :: rest) then line + 1 else line) front =
        scan line (c :: front) := by
      rw [scan_blank hc]
      cases front with
      | nil => rw [scan_nil, scan_nil]
      | cons => rfl
    rw [List.cons_append, scan_blank hc, ih, hfront, countBreaks_cons]
    congr 2
    split <;> omega
  | skip c front hc hreach ih =>
    have hreach' : tokenReach (c :: (front ++ d :: rest)) = 0 :=
      (tokenReach_append (c :: front) rest hd).trans hreach
    rw [List.cons_append, scan_skip hc hreach', scan_skip hc hreach, ih, countBreaks_cons,
      endsBreak_of_not_isBreak (not_isBreak_of_not_isBlank hc)]
    simp
  | token c front hc hreach ih =>
    have hle := tokenReach_le (c :: front)
    have hreach' : tokenReach (c :: (front ++ d :: rest)) = tokenReach (c :: front) :=
      tokenReach_append (c :: front) rest hd
    have hbreaks : countBreaks ((c :: front) ++ d :: rest) =
        countBreaks ((c :: front).drop (tokenReach (c :: front)) ++ d :: rest) := by
      calc countBreaks ((c :: front) ++ d :: rest)
          = countBreaks ((c :: front).take (tokenReach (c :: front)) ++
              ((c :: front).drop (tokenReach (c :: front)) ++ d :: rest)) := by
            rw [← List.append_assoc, List.take_append_drop]
        _ = _ := Unbroken.countBreaks_append (fun c' hmem =>
            not_isBreak_of_not_isBlank (not_isBlank_of_mem_token hmem)) _
    rw [hbreaks, List.cons_append, scan_token hc (hreach' ▸ hreach), scan_token hc hreach, hreach',
      ← List.cons_append, List.take_append_of_le_length hle, List.drop_append_of_le_length hle, ih,
      List.cons_append]

/-! ## The lexer -/

namespace LexClass

/-- An identifier is read whole in front of what is no part of it. -/
theorem reachIdentifier_append_rest {name rest : List Char} (h : isNameShaped name = true)
    (hrest : ∀ c ∈ rest.head?, isNamePart c = false) :
    reachIdentifier (name ++ rest) = name.length := by
  cases name with
  | nil => cases h
  | cons c more =>
    simp only [isNameShaped, Bool.and_eq_true, List.all_eq_true] at h
    have hnone : rest.takeWhile isNamePart = [] := by
      cases rest with
      | nil => rfl
      | cons d rest => simp [hrest d rfl]
    simp [reachIdentifier, h.1, List.takeWhile_append_of_pos h.2, hnone, Nat.add_comm]

/-- A keyword between word boundaries is a whole identifier. -/
theorem reachIdentifier_of_reachKeyword {word : Char → Bool}
    (hword : ∀ c, isNamePart c = true → word c = true) {before : Option Char} {text : List Char}
    (h : reachKeyword word before text ≠ 0) :
    reachIdentifier text = reachKeyword word before text := by
  rw [reachKeyword, reachOfSpelling] at h ⊢
  split at h
  · next s hfind =>
    have hmem := List.mem_of_find?_eq_some hfind
    have hpass := List.find?_some hfind
    simp only [Bool.and_eq_true, List.isPrefixOf_iff_prefix] at hpass
    obtain ⟨⟨rest, rfl⟩, -, hend⟩ := hpass
    have hwords : ∀ s ∈ keywordSpellings,
        isNameShaped s = true ∧ s.getLast?.any isNamePart = true := by decide
    obtain ⟨hshaped, hlast⟩ := hwords s hmem
    have hrest : ∀ c ∈ rest.head?, isNamePart c = false := by
      intro c hhead
      refine Bool.eq_false_iff.mpr fun hpart => ?_
      obtain ⟨last, hlast, hpart'⟩ := (Option.any_eq_true _ _).mp hlast
      rw [List.drop_left, hlast, Option.mem_def.mp hhead] at hend
      simp [isWordBoundary, hword _ hpart, hword _ hpart'] at hend
    exact reachIdentifier_append_rest hshaped hrest
  · exact absurd rfl h

theorem reach_operator_of_reachIdentifier {word : Char → Bool} {before : Option Char}
    {text : List Char} (h : reachIdentifier text ≠ 0) : operator.reach word before text = 0 := by
  cases text with
  | nil => exact absurd rfl h
  | cons c rest =>
    have hstart : isNameStart c = true := by
      simp only [reachIdentifier] at h
      by_contra hstart
      exact h (if_neg hstart)
    exact reachOfSpelling_eq_zero (p := isNameStart) (by decide) hstart

/-- A class that makes tokens asks neither for the character before nor for words. -/
theorem reach_of_mem_tokenClasses {k : LexClass} (hk : k ∈ tokenClasses) (word : Char → Bool)
    (before : Option Char) (text : List Char) :
    k.reach word before text = k.reach isNamePart none text := by
  simp only [tokenClasses, List.mem_cons, List.not_mem_nil, or_false] at hk
  rcases hk with rfl | rfl | rfl | rfl <;> rfl

/-- Keywords are tried first and blanks last. -/
theorem first?_eq (word : Char → Bool) (before : Option Char) (c : Char) (rest : List Char) :
    first? word before (c :: rest) =
      if reachKeyword word before (c :: rest) ≠ 0 then some keyword
      else (tokenClasses.find? fun k => k.reach isNamePart none (c :: rest) != 0).or
        (if isBlank c then some whitespace else none) := by
  have hfind := List.find?_congr (l := tokenClasses) fun k hk =>
    congrArg (· != 0) (reach_of_mem_tokenClasses hk word before (c :: rest))
  have hblank : whitespace.reach word before (c :: rest) ≠ 0 ↔ isBlank c = true := by
    by_cases hc : isBlank c = true <;> simp [reach, hc]
  have hkeyword : keyword.reach word before (c :: rest) = reachKeyword word before (c :: rest) :=
    rfl
  show (keyword :: (tokenClasses ++ [whitespace])).find? _ = _
  rw [List.find?_cons, List.find?_append, hfind, List.find?_singleton]
  by_cases hkey : reachKeyword word before (c :: rest) = 0
  · simp [hkeyword, hkey, hblank]
  · simp [hkeyword, bne_iff_ne.mpr hkey, hkey]

/-- A keyword is as long as the token there. -/
theorem tokenReach_of_reachKeyword {word : Char → Bool}
    (hword : ∀ c, isNamePart c = true → word c = true) {before : Option Char} {text : List Char}
    (h : reachKeyword word before text ≠ 0) : tokenReach text = reachKeyword word before text := by
  have hname := reachIdentifier_of_reachKeyword hword h
  have hoperator : operator.reach isNamePart none text = 0 :=
    reach_operator_of_reachIdentifier (hname ▸ h)
  have hidentifier : identifier.reach isNamePart none text = reachKeyword word before text := hname
  simp [tokenReach, tokenClasses, hoperator, hidentifier, h]

/-- What the lexer takes at a position is a blank, nothing, or a token. -/
theorem first?_cases {word : Char → Bool} (hword : ∀ c, isNamePart c = true → word c = true)
    (before : Option Char) (c : Char) (rest : List Char) :
    (first? word before (c :: rest) = some whitespace ∧ isBlank c = true) ∨
    (first? word before (c :: rest) = none ∧ isBlank c = false ∧ tokenReach (c :: rest) = 0) ∨
    ∃ k, first? word before (c :: rest) = some k ∧ k ≠ whitespace ∧
      k.reach word before (c :: rest) = tokenReach (c :: rest) ∧ tokenReach (c :: rest) ≠ 0 := by
  have hall := first?_eq word before c rest
  by_cases hkey : reachKeyword word before (c :: rest) ≠ 0
  · have hreach := tokenReach_of_reachKeyword hword hkey
    exact .inr (.inr ⟨keyword, by rw [hall, if_pos hkey], by decide, hreach.symm, hreach ▸ hkey⟩)
  · rw [if_neg hkey] at hall
    cases hfind : tokenClasses.find? fun k => k.reach isNamePart none (c :: rest) != 0 with
    | some k =>
      have hmem := List.mem_of_find?_eq_some hfind
      have hreach : tokenReach (c :: rest) = k.reach isNamePart none (c :: rest) := by
        rw [tokenReach, hfind]
        rfl
      refine .inr (.inr ⟨k, by rw [hall, hfind]; rfl, ?_, ?_, ?_⟩)
      · rintro rfl
        exact absurd hmem (by decide)
      · rw [reach_of_mem_tokenClasses hmem, hreach]
      · simpa [hreach] using List.find?_some hfind
    | none =>
      rw [hfind, Option.none_or] at hall
      have hzero : tokenReach (c :: rest) = 0 := by
        rw [tokenReach, hfind]
        rfl
      by_cases hc : isBlank c = true
      · exact .inl ⟨by rw [hall, if_pos hc], hc⟩
      · exact .inr (.inl ⟨by rw [hall, if_neg hc], Bool.eq_false_iff.mpr hc, hzero⟩)

end LexClass

theorem drop_length_takeWhile (p : Char → Bool) (text : List Char) :
    text.drop (text.takeWhile p).length = text.dropWhile p := by
  induction text with
  | nil => rfl
  | cons c rest ih => by_cases hc : p c = true <;> simp [hc, ih]

/-- Scanning goes on behind a run of blanks, whose line breaks are counted. -/
theorem scan_dropWhile (line : Nat) (text : List Char) :
    scan line text = scan (line + countBreaks (text.takeWhile isBlank)) (text.dropWhile isBlank) := by
  induction text generalizing line with
  | nil => rfl
  | cons c rest ih =>
    by_cases hc : isBlank c = true
    · have hend : endsBreak c rest = endsBreak c (rest.takeWhile isBlank) := by
        cases rest with
        | nil => rfl
        | cons d rest =>
          by_cases hd : isBlank d = true
          · simp [endsBreak, hd]
          · have hne : (some d != some '\n') = true := bne_iff_ne.mpr fun h => by
              cases h
              exact hd (by decide)
            rw [List.takeWhile_cons_of_neg hd, endsBreak, endsBreak, List.head?_cons, hne]
            rfl
      rw [scan_blank hc, ih, List.takeWhile_cons_of_pos hc, List.dropWhile_cons_of_pos hc,
        countBreaks_cons, hend]
      congr 1
      split <;> omega
    · rw [List.takeWhile_cons_of_neg hc, List.dropWhile_cons_of_neg hc]
      rfl

theorem Lexeme.cutFrom_eq (word : Char → Bool) (done : List Lexeme) (before : Option Char)
    (text : List Char) :
    cutFrom word done before text = done.reverse ++ cutFrom word [] before text := by
  induction hn : text.length using Nat.strongRecOn generalizing done before text with
  | _ n ih =>
    cases text with
    | nil => simp [cutFrom]
    | cons c rest =>
      have hlt : ∀ count, (rest.drop count).length < n := by
        intro count
        rw [← hn, List.length_drop, List.length_cons]
        omega
      rw [cutFrom, cutFrom, ih _ (hlt _) (_ :: done) _ _ rfl, ih _ (hlt _) [_] _ _ rfl]
      simp

theorem Lexeme.cutFrom_of_none {word : Char → Bool} {before : Option Char} {c : Char}
    {rest : List Char} (h : LexClass.first? word before (c :: rest) = none) :
    cutFrom word [] before (c :: rest) = ⟨none, [c]⟩ :: cutFrom word [] (some c) rest := by
  rw [cutFrom, cutFrom_eq, h]
  rfl

theorem Lexeme.cutFrom_of_some {word : Char → Bool} {before : Option Char} {c : Char}
    {rest : List Char} {k : LexClass} (h : LexClass.first? word before (c :: rest) = some k) :
    cutFrom word [] before (c :: rest) =
      ⟨some k, (c :: rest).take (k.reach word before (c :: rest))⟩ ::
        cutFrom word [] ((c :: rest).take (k.reach word before (c :: rest))).getLast?
          ((c :: rest).drop (k.reach word before (c :: rest))) := by
  have hreach : k.reach word before (c :: rest) ≠ 0 := by simpa using List.find?_some h
  obtain ⟨count, hcount⟩ := Nat.exists_eq_succ_of_ne_zero hreach
  rw [cutFrom, cutFrom_eq, h]
  simp only [Option.elim_some, hcount, Nat.succ_sub_one]
  rfl

theorem Token.ofLexemesFrom_eq (done : List Token) (line : Nat) (lexemes : List Lexeme) :
    ofLexemesFrom done line lexemes = done.reverse ++ ofLexemesFrom [] line lexemes := by
  induction lexemes generalizing done line with
  | nil => simp [ofLexemesFrom]
  | cons lexeme lexemes ih =>
    rw [ofLexemesFrom, ofLexemesFrom]
    split
    · rw [ih]
    · rw [ih, ih [_]]
      simp

/-- The lexer finds the tokens that the scanner finds. -/
theorem tokens_cutFrom {word : Char → Bool} (hword : ∀ c, isNamePart c = true → word c = true)
    (line : Nat) (before : Option Char) (text : List Char) :
    Token.ofLexemesFrom [] line (Lexeme.cutFrom word [] before text) = scan line text := by
  induction hn : text.length using Nat.strongRecOn generalizing line before text with
  | _ n ih =>
    cases text with
    | nil => simp [Lexeme.cutFrom, Token.ofLexemesFrom]
    | cons c rest =>
      have hlt : ∀ count ≠ 0, ((c :: rest).drop count).length < n := by
        intro count hcount
        rw [← hn, List.length_drop, List.length_cons]
        omega
      rcases LexClass.first?_cases hword before c rest with ⟨hfirst, hc⟩ | ⟨hfirst, hc, hreach⟩ |
        ⟨k, hfirst, hk, hreach, hsome⟩
      · have hne : ((c :: rest).takeWhile isBlank).length ≠ 0 := by simp [hc]
        have htake := List.prefix_iff_eq_take.mp (List.takeWhile_prefix isBlank (l := c :: rest))
        rw [Lexeme.cutFrom_of_some hfirst, Token.ofLexemesFrom, if_pos (by rfl), LexClass.reach,
          ih _ (hlt _ hne) _ _ _ rfl, scan_dropWhile line (c :: rest), ← htake, drop_length_takeWhile]
      · rw [Lexeme.cutFrom_of_none hfirst, Token.ofLexemesFrom, if_pos (by rfl), scan_skip hc hreach,
          countBreaks_cons, endsBreak_of_not_isBreak (not_isBreak_of_not_isBlank hc)]
        exact ih _ (hlt 1 (by decide)) _ _ _ rfl
      · have hkept : ¬ (⟨some k, (c :: rest).take (tokenReach (c :: rest))⟩ : Lexeme).isDropped := by
          simp [Lexeme.isDropped, hk]
        have hc : isBlank c = false := by
          obtain ⟨count, hcount⟩ := Nat.exists_eq_succ_of_ne_zero hsome
          have hmem : c ∈ (c :: rest).take (tokenReach (c :: rest)) := by simp [hcount]
          exact not_isBlank_of_mem_token hmem
        rw [Lexeme.cutFrom_of_some hfirst, hreach, Token.ofLexemesFrom, if_neg hkept,
          Token.ofLexemesFrom_eq, ih _ (hlt _ hsome) _ _ _ rfl, scan_token hc hsome]
        rfl

theorem tokenizeCode_eq_scan {word : Char → Bool}
    (hword : ∀ c, isNamePart c = true → word c = true) (code : List Char) :
    tokenizeCode word code = scan 1 code :=
  tokens_cutFrom hword 1 none code

end MlFront
