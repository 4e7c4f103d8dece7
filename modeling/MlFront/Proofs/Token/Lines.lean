import Mathlib.Data.List.Forall2
import MlFront.Proofs.Token.Scan

/-!
# Lines of tokens and lines of the source

Tokens carry the lines of the text without comments, and errors show lines of the
source. `lineTokens` reads each line of the source on its own and gives its tokens
the number of that line. The lexer finds the same tokens (`lines_lag`), but a `\r`
and a `\n` with nothing but a comment between them become one break when the
comment is cut, and from there on its lines lag behind. Nothing else goes wrong.
-/

namespace MlFront

/-- The tokens of the text, which starts on the given line, after its comments are cut. -/
def scanSource (line : Nat) (text : List Char) : List Token :=
  scan line (stripComments text)

/-- The tokens of each line, read on its own, with the number of the line. -/
def tokensOfLines (number : Nat) (lines : List (List Char)) : List Token :=
  (lines.zipIdx number).flatMap fun (line, number) =>
    (tokenize (String.ofList line)).map fun token => ⟨token.text, number⟩

/-- The tokens of each line of the source, read on its own, with the number of the line. -/
def lineTokens (source : String) : List Token :=
  tokensOfLines 1 (splitLines source.toList)

theorem tokenize_eq_scanSource (source : String) : tokenize source = scanSource 1 source.toList :=
  tokenizeCode_eq_scan (fun _ h => h) _

/-! ## The line of a token -/

/-- A text that starts further down has the same tokens further down. -/
theorem scan_add (line count : Nat) (text : List Char) :
    scan (line + count) text =
      (scan line text).map fun token => ⟨token.text, token.line + count⟩ := by
  induction text using scan_induction generalizing line with
  | nil => simp
  | blank c rest hc ih =>
    rw [scan_blank hc, scan_blank hc]
    split
    · rw [← ih, Nat.add_right_comm]
    · exact ih line
  | skip c rest hc hreach ih => rw [scan_skip hc hreach, scan_skip hc hreach, ih]
  | token c rest hc hreach ih => rw [scan_token hc hreach, scan_token hc hreach, ih, List.map_cons]

theorem line_of_mem_scan {line : Nat} {text : List Char} (h : Unbroken text) :
    ∀ token ∈ scan line text, token.line = line := by
  induction text using scan_induction with
  | nil => simp
  | blank c rest hc ih =>
    rw [scan_blank hc, endsBreak_of_not_isBreak (h c List.mem_cons_self)]
    exact ih fun c hmem => h c (List.mem_cons_of_mem _ hmem)
  | skip c rest hc hreach ih =>
    rw [scan_skip hc hreach]
    exact ih fun c hmem => h c (List.mem_cons_of_mem _ hmem)
  | token c rest hc hreach ih =>
    rw [scan_token hc hreach]
    exact List.forall_mem_cons.mpr ⟨rfl, ih fun c hmem => h c (List.mem_of_mem_drop hmem)⟩

theorem scan_map_line {text : List Char} (h : Unbroken text) (line number : Nat) :
    (scan line text).map (fun token => ⟨token.text, number⟩) = scan number text := by
  have hline := scan_add 0 line text
  have hnumber := scan_add 0 number text
  rw [Nat.zero_add] at hline hnumber
  rw [hline, hnumber, List.map_map]
  refine List.map_congr_left fun token hmem => ?_
  simp [line_of_mem_scan h token hmem]

/-! ## Line by line -/

section Lines

variable {line : List Char}

theorem tokensOfLines_cons (h : Unbroken line) (number : Nat) (lines : List (List Char)) :
    tokensOfLines number (line :: lines) =
      scanSource number line ++ tokensOfLines (number + 1) lines := by
  have hline := scan_map_line h.stripComments 1 number
  simp only [tokensOfLines, List.zipIdx_cons, List.flatMap_cons, tokenize_eq_scanSource,
    String.toList_ofList, scanSource, hline]

theorem scanSource_append {c : Char} (hc : isBreak c = true) (h : Unbroken line) (number : Nat)
    (rest : List Char) :
    scanSource number (line ++ c :: rest) =
      scanSource number line ++
        scanSource (if endsBreak c (stripComments rest) then number + 1 else number) rest := by
  rw [scanSource, stripComments_append hc, scan_append (isBlank_of_isBreak hc),
    h.stripComments.countBreaks_append, countBreaks_cons]
  congr 2
  split <;> omega

theorem scanSource_newline (h : Unbroken line) (number : Nat) (rest : List Char) :
    scanSource number (line ++ '\n' :: rest) =
      scanSource number line ++ scanSource (number + 1) rest :=
  scanSource_append (c := '\n') (by decide) h number rest

theorem scanSource_pair (h : Unbroken line) (number : Nat) (rest : List Char) :
    scanSource number (line ++ '\r' :: '\n' :: rest) =
      scanSource number line ++ scanSource (number + 1) rest := by
  have hempty : Unbroken [] := by simp [Unbroken]
  have hnone' : scanSource number [] = [] := scan_nil
  have hskip := scanSource_newline hempty number rest
  rw [List.nil_append, hnone', List.nil_append] at hskip
  have hnone : endsBreak '\r' (stripComments ('\n' :: rest)) = false := by
    rw [stripComments_break (by decide)]
    rfl
  rw [scanSource_append (by decide) h, hnone, if_neg Bool.false_ne_true, hskip]

theorem scanSource_comment {comment : List Char} (h : Unbroken comment) (number : Nat) :
    scanSource number ('-' :: '-' :: comment) = [] := by
  rw [scanSource, stripComments_comment h, scan_nil]

/-- A comment alone on its line, behind a `\r` and in front of a `\n`, costs a line. -/
theorem scanSource_joined {comment : List Char} (h : Unbroken line) (hcomment : Unbroken comment)
    (number : Nat) (rest : List Char) :
    scanSource number (line ++ '\r' :: '-' :: '-' :: (comment ++ '\n' :: rest)) =
      scanSource number line ++ scanSource (number + 1) rest := by
  have hnewline := scanSource_newline hcomment.dashes number rest
  rw [scanSource_comment hcomment, List.nil_append] at hnewline
  rw [scanSource_append (by decide) h, stripComments_comment_newline hcomment, endsBreak, if_neg (by simp)]
  exact congrArg _ hnewline

theorem splitLines_joined {comment rest : List Char} (h : Unbroken line) (hcomment : Unbroken comment) :
    splitLines (line ++ '\r' :: '-' :: '-' :: (comment ++ '\n' :: rest)) =
      line :: ('-' :: '-' :: comment) :: splitLines rest := by
  rw [splitLines_single h (by simp [endsBreak]),
    ← splitLines_single (c := '\n') hcomment.dashes (by simp [endsBreak])]
  rfl

end Lines

/-- The breaks of a source are kept when its comments are cut, but for a `\r` and
a `\n` with nothing but a comment between them. -/
theorem source_induction {P : List Char → Prop} (last : ∀ line, Unbroken line → P line)
    (pair : ∀ line rest, Unbroken line → P rest → P (line ++ '\r' :: '\n' :: rest))
    (single : ∀ line c rest, Unbroken line → endsBreak c rest = true →
      endsBreak c (stripComments rest) = true → P rest → P (line ++ c :: rest))
    (joined : ∀ line comment rest, Unbroken line → Unbroken comment → P rest →
      P (line ++ '\r' :: '-' :: '-' :: (comment ++ '\n' :: rest))) (text : List Char) : P text := by
  induction hn : text.length using Nat.strongRecOn generalizing text with
  | _ n ih =>
    rcases lines_cases text with h | ⟨line, rest, h, rfl⟩ | ⟨line, c, rest, h, hend, rfl⟩
    · exact last text h
    · exact pair line rest h (ih _ (by simp [← hn]; omega) rest rfl)
    · rcases endsBreak_stripComments hend with hkept | ⟨rfl, comment, after, hcomment, rfl⟩
      · exact single line c rest h hend hkept (ih _ (by simp [← hn]; omega) rest rfl)
      · exact joined line comment after h hcomment (ih _ (by simp [← hn]; omega) after rfl)

/-! ## Lagging behind -/

/-- The second token has the same text, and its line, counted from `number'`, is
no nearer than that of the first one, counted from `number`. -/
def Lags (number number' : Nat) (token token' : Token) : Prop :=
  token.text = token'.text ∧ token.line + number' ≤ token'.line + number

theorem lags_scanSource {line : List Char} (h : Unbroken line) (number number' : Nat) :
    List.Forall₂ (Lags number number') (scanSource number line) (scanSource number' line) := by
  rw [scanSource, scanSource, ← scan_map_line h.stripComments number number', List.forall₂_map_right_iff,
    List.forall₂_same]
  intro token hmem
  refine ⟨rfl, ?_⟩
  rw [line_of_mem_scan h.stripComments token hmem, Nat.add_comm]

/-- The lexer finds the tokens of the lines, on lines that may lag behind. -/
theorem lines_lag (text : List Char) (number number' : Nat) :
    List.Forall₂ (Lags number number') (scanSource number text)
      (tokensOfLines number' (splitLines text)) := by
  induction text using source_induction generalizing number number' with
  | last line h =>
    rw [splitLines_unbroken h, tokensOfLines_cons h]
    simpa [tokensOfLines] using lags_scanSource h number number'
  | pair line rest h ih =>
    rw [splitLines_pair h, tokensOfLines_cons h, scanSource_pair h]
    refine List.rel_append (lags_scanSource h number number') ((ih _ _).imp fun token token' hlag => ?_)
    exact ⟨hlag.1, by have := hlag.2; omega⟩
  | single line c rest h hend hkept ih =>
    rw [splitLines_single h hend, tokensOfLines_cons h,
      scanSource_append (isBreak_of_endsBreak hend) h, if_pos hkept]
    refine List.rel_append (lags_scanSource h number number') ((ih _ _).imp fun token token' hlag => ?_)
    exact ⟨hlag.1, by have := hlag.2; omega⟩
  | joined line comment rest h hcomment ih =>
    rw [splitLines_joined h hcomment, tokensOfLines_cons h,
      tokensOfLines_cons hcomment.dashes,
      scanSource_comment hcomment, List.nil_append, scanSource_joined h hcomment]
    refine List.rel_append (lags_scanSource h number number') ((ih _ _).imp fun token token' hlag => ?_)
    exact ⟨hlag.1, by have := hlag.2; omega⟩

/-- Tokens that lag behind by a line are on other lines, unless there are none. -/
theorem scanSource_eq_nil_of_lag {text : List Char} {number number' : Nat} (hlt : number < number')
    (h : scanSource number text = tokensOfLines number' (splitLines text)) :
    scanSource number text = [] := by
  have hlag := lines_lag text number number'
  rw [← h] at hlag
  cases htokens : scanSource number text with
  | nil => rfl
  | cons token tokens =>
    rw [htokens] at hlag
    obtain ⟨hhead, -⟩ := List.forall₂_cons.mp hlag
    have := hhead.2
    omega

theorem scanSource_eq_nil_iff (text : List Char) (number number' : Nat) :
    scanSource number text = [] ↔ tokensOfLines number' (splitLines text) = [] := by
  have hlength := (lines_lag text number number').length_eq
  rw [← List.length_eq_zero_iff, ← List.length_eq_zero_iff, hlength]

theorem scanSource_eq_nil_congr {text : List Char} (number : Nat) (h : scanSource number text = [])
    (number' : Nat) : scanSource number' text = [] :=
  (scanSource_eq_nil_iff text number' 1).mpr ((scanSource_eq_nil_iff text number 1).mp h)

/-! ## Where lines are lost -/

/-- Behind a comment that stands between a `\r` and a `\n` there are no tokens. -/
def Harmless (text : List Char) : Prop :=
  ∀ comment after, Unbroken comment →
    '\r' :: '-' :: '-' :: (comment ++ '\n' :: after) <:+ text → scanSource 1 after = []

theorem suffix_append_iff {c : Char} {line more rest : List Char} (h : c ∉ line) :
    c :: more <:+ line ++ rest ↔ c :: more <:+ rest := by
  induction line with
  | nil => rfl
  | cons d line ih =>
    simp only [List.mem_cons, not_or] at h
    rw [List.cons_append, List.suffix_cons_iff, ih h.2, or_iff_right]
    rintro heq
    exact h.1 (List.cons.inj heq).1

theorem Unbroken.not_mem {line : List Char} (h : Unbroken line) : '\r' ∉ line :=
  fun hmem => absurd (h _ hmem) (by decide)

theorem harmless_unbroken {line : List Char} (h : Unbroken line) : Harmless line := by
  intro comment after _ hsuffix
  exact absurd (hsuffix.subset List.mem_cons_self) h.not_mem

theorem harmless_pair {line rest : List Char} (h : Unbroken line) :
    Harmless (line ++ '\r' :: '\n' :: rest) ↔ Harmless rest := by
  simp [Harmless, suffix_append_iff h.not_mem, List.suffix_cons_iff]

theorem harmless_single {line rest : List Char} {c : Char} (h : Unbroken line)
    (hkept : endsBreak c (stripComments rest) = true) :
    Harmless (line ++ c :: rest) ↔ Harmless rest := by
  have hne : ∀ comment after, Unbroken comment →
      '\r' :: '-' :: '-' :: (comment ++ '\n' :: after) ≠ c :: rest := by
    rintro comment after hcomment heq
    obtain ⟨rfl, rfl⟩ := List.cons.inj heq
    rw [stripComments_comment_newline hcomment] at hkept
    simp [endsBreak] at hkept
  simp only [Harmless, suffix_append_iff h.not_mem, List.suffix_cons_iff]
  constructor
  · exact fun hall comment after hcomment hsuffix => hall comment after hcomment (.inr hsuffix)
  · exact fun hall comment after hcomment hsuffix =>
      hall comment after hcomment (hsuffix.resolve_left (hne comment after hcomment))

/-- Where there are no tokens, there are none behind a line break. -/
theorem scanSource_eq_nil_of_newline (front : List Char) {after : List Char} {number : Nat}
    (h : scanSource number (front ++ '\n' :: after) = []) : scanSource number after = [] := by
  rw [scanSource, stripComments_append (by decide), scan_append (by decide),
    List.append_eq_nil_iff] at h
  exact scanSource_eq_nil_congr _ h.2 number

theorem harmless_joined {line comment rest : List Char} (h : Unbroken line)
    (hcomment : Unbroken comment) :
    Harmless (line ++ '\r' :: '-' :: '-' :: (comment ++ '\n' :: rest)) ↔
      scanSource 1 rest = [] := by
  refine ⟨fun hall => hall comment rest hcomment (List.suffix_append line _), ?_⟩
  intro hnone comment' after hcomment' hsuffix
  rw [suffix_append_iff h.not_mem, List.suffix_cons_iff] at hsuffix
  rcases hsuffix with heq | hsuffix
  · simp only [List.cons.injEq, true_and] at heq
    rw [hcomment'.eq_of_append_newline hcomment heq]
    exact hnone
  · have hrest : '\r' :: '-' :: '-' :: (comment' ++ '\n' :: after) <:+ rest := by
      have hbehind : '\r' :: '-' :: '-' :: (comment' ++ '\n' :: after) <:+
          '-' :: '-' :: comment ++ '\n' :: rest := hsuffix
      rw [suffix_append_iff hcomment.dashes.not_mem, List.suffix_cons_iff] at hbehind
      simpa using hbehind
    obtain ⟨front, rfl⟩ := hrest
    refine scanSource_eq_nil_of_newline (front ++ '\r' :: '-' :: '-' :: comment') ?_
    simpa using hnone

theorem scanSource_eq_tokensOfLines_iff (text : List Char) (number : Nat) :
    scanSource number text = tokensOfLines number (splitLines text) ↔ Harmless text := by
  induction text using source_induction generalizing number with
  | last line h =>
    refine ⟨fun _ => harmless_unbroken h, fun _ => ?_⟩
    rw [splitLines_unbroken h, tokensOfLines_cons h]
    simp [tokensOfLines]
  | pair line rest h ih =>
    rw [splitLines_pair h, tokensOfLines_cons h, scanSource_pair h, List.append_cancel_left_eq, ih,
      harmless_pair h]
  | single line c rest h hend hkept ih =>
    rw [splitLines_single h hend, tokensOfLines_cons h,
      scanSource_append (isBreak_of_endsBreak hend) h, if_pos hkept, List.append_cancel_left_eq, ih,
      harmless_single h hkept]
  | joined line comment rest h hcomment ih =>
    rw [splitLines_joined h hcomment, tokensOfLines_cons h,
      tokensOfLines_cons hcomment.dashes,
      scanSource_comment hcomment, List.nil_append, scanSource_joined h hcomment,
      List.append_cancel_left_eq, harmless_joined h hcomment]
    constructor
    · intro heq
      exact scanSource_eq_nil_congr _ (scanSource_eq_nil_of_lag (Nat.lt_succ_self _) heq) 1
    · intro hnone
      rw [scanSource_eq_nil_congr 1 hnone, (scanSource_eq_nil_iff rest 1 _).mp hnone]

/-! ## Tokens in their context -/

/-- A token is a piece of the text, without blanks. -/
theorem text_of_mem_scan {line : Nat} {text : List Char} :
    ∀ token ∈ scan line text, token.text.toList <:+: text ∧ token.text.toList ≠ [] ∧
      ∀ c ∈ token.text.toList, isBlank c = false := by
  induction text using scan_induction generalizing line with
  | nil => simp
  | blank c rest hc ih =>
    rw [scan_blank hc]
    exact fun token hmem => (ih token hmem).imp_left (List.infix_cons ·)
  | skip c rest hc hreach ih =>
    rw [scan_skip hc hreach]
    exact fun token hmem => (ih token hmem).imp_left (List.infix_cons ·)
  | token c rest hc hreach ih =>
    rw [scan_token hc hreach, List.forall_mem_cons]
    refine ⟨?_, fun token hmem => (ih token hmem).imp_left fun h =>
      h.trans (List.drop_suffix _ _).isInfix⟩
    rw [String.toList_ofList]
    refine ⟨(List.take_prefix _ _).isInfix, ?_, fun c hmem => not_isBlank_of_mem_token hmem⟩
    simp [hreach]

theorem infix_dropWhile {word text : List Char} (hsome : word ≠ [])
    (hword : ∀ c ∈ word, isBlank c = false) (h : word <:+: text) :
    word <:+: text.dropWhile isBlank := by
  induction text with
  | nil => exact h
  | cons c text ih =>
    by_cases hc : isBlank c = true
    · rw [List.dropWhile_cons_of_pos hc]
      refine ih ((List.infix_cons_iff.mp h).resolve_left fun hprefix => ?_)
      obtain ⟨d, more, rfl⟩ := List.exists_cons_of_ne_nil hsome
      obtain ⟨rfl, -⟩ := List.cons_prefix_cons.mp hprefix
      rw [hword d List.mem_cons_self] at hc
      cases hc
    · rwa [List.dropWhile_cons_of_neg hc]

theorem infix_trim {word text : List Char} (hsome : word ≠ [])
    (hword : ∀ c ∈ word, isBlank c = false) (h : word <:+: text) : word <:+: trim text := by
  have hfront := infix_dropWhile hsome hword h
  have hsome' : word.reverse ≠ [] := by simpa using hsome
  have hword' : ∀ c ∈ word.reverse, isBlank c = false := by simpa using hword
  have hback := infix_dropWhile hsome' hword' (List.reverse_infix.mpr hfront)
  rw [trim, ← List.reverse_infix, List.reverse_reverse]
  exact hback

theorem mem_splitLines_unbroken {text : List Char} :
    ∀ line ∈ splitLines text, Unbroken line := by
  induction text using lines_induction with
  | last line h =>
    rw [splitLines_unbroken h]
    exact List.forall_mem_singleton.mpr h
  | pair line rest h ih =>
    rw [splitLines_pair h]
    exact List.forall_mem_cons.mpr ⟨h, ih⟩
  | single line c rest h hend ih =>
    rw [splitLines_single h hend]
    exact List.forall_mem_cons.mpr ⟨h, ih⟩

/-- The line of the source that has a token's number has the token in it. -/
theorem infix_lineContext {source : String} {token : Token} (h : token ∈ lineTokens source) :
    token.text.toList <:+: (lineContext source token.line).toList := by
  obtain ⟨⟨line, number⟩, hline, htoken⟩ := List.mem_flatMap.mp h
  obtain ⟨found, hfound, rfl⟩ := List.mem_map.mp htoken
  obtain ⟨hle, hget⟩ := List.mk_mem_zipIdx_iff_le_and_getElem?_sub.mp hline
  obtain ⟨index, rfl⟩ := Nat.exists_eq_add_of_le hle
  have hunbroken := mem_splitLines_unbroken line (List.mem_of_getElem? hget)
  rw [tokenize_eq_scanSource, String.toList_ofList] at hfound
  obtain ⟨hpiece, hsome, hword⟩ := text_of_mem_scan found hfound
  have hcontext : lineContext source (1 + index) = String.ofList (trim line) := by
    rw [Nat.add_sub_cancel_left] at hget
    rw [Nat.add_comm, lineContext, hget]
  rw [hcontext, String.toList_ofList]
  exact infix_trim hsome hword (hpiece.trans hunbroken.stripComments_prefix.isInfix)

/-- The tokens of a source are those of its lines, each read on its own and
numbered, exactly when no tokens stand behind a comment between a `\r` and a `\n`.
Then the line that an error shows for a token has the token in it. -/
theorem tokenize_eq_lineTokens_iff (source : String) :
    (tokenize source = lineTokens source ↔
      ∀ comment after : List Char, (∀ c ∈ comment, c ≠ '\n' ∧ c ≠ '\r') →
        '\r' :: '-' :: '-' :: (comment ++ '\n' :: after) <:+ source.toList →
        tokenize (String.ofList after) = []) ∧
    (tokenize source = lineTokens source → ∀ token ∈ tokenize source,
      token.text.toList <:+: (lineContext source token.line).toList) := by
  constructor
  · rw [tokenize_eq_scanSource, lineTokens, scanSource_eq_tokensOfLines_iff]
    simp [Harmless, Unbroken, isBreak, tokenize_eq_scanSource]
  · intro heq token hmem
    rw [heq] at hmem
    exact infix_lineContext hmem

/-- The comment takes the break in front of it away, and `x` is put on the line of
the comment. -/
theorem tokenize_ne_lineTokens :
    tokenize "\r--c\nx" = [⟨"x", 2⟩] ∧ lineTokens "\r--c\nx" = [⟨"x", 3⟩] ∧
      lineContext "\r--c\nx" 2 = "--c" ∧ tokenize "\r--c\nx" ≠ lineTokens "\r--c\nx" := by
  decide +kernel

end MlFront
