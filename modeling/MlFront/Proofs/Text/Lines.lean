import Mathlib.Data.List.TakeWhile
import MlFront.Token.Comment

/-!
# Texts line by line

Every text is an unbroken line, or an unbroken line, a break and the text behind
it (`lines_induction`). A break is `\r\n`, or one character at which `endsBreak`
holds. The functions on texts have an equation for each of these shapes: counting
breaks, cutting into lines, and cutting comments.
-/

namespace MlFront

/-- The text has no line break. -/
def Unbroken (text : List Char) : Prop :=
  ∀ c ∈ text, isBreak c = false

/-! ## Breaks -/

theorem isBreak_iff {c : Char} : isBreak c = true ↔ c = '\n' ∨ c = '\r' := by
  simp [isBreak]

theorem isBlank_of_isBreak {c : Char} (h : isBreak c = true) : isBlank c = true := by
  rcases isBreak_iff.mp h with rfl | rfl <;> decide

theorem not_isBreak_of_not_isBlank {c : Char} (h : isBlank c = false) : isBreak c = false := by
  refine Bool.eq_false_iff.mpr fun hbreak => ?_
  rw [isBlank_of_isBreak hbreak] at h
  cases h

theorem endsBreak_of_not_isBreak {c : Char} (h : isBreak c = false) (rest : List Char) :
    endsBreak c rest = false := by
  simp only [isBreak, Bool.or_eq_false_iff] at h
  simp [endsBreak, h.1, h.2]

theorem endsBreak_iff {c : Char} {rest : List Char} :
    endsBreak c rest = true ↔ c = '\n' ∨ (c = '\r' ∧ rest.head? ≠ some '\n') := by
  simp [endsBreak]

theorem isBreak_of_endsBreak {c : Char} {rest : List Char} (h : endsBreak c rest = true) :
    isBreak c = true := by
  rcases endsBreak_iff.mp h with rfl | ⟨rfl, -⟩ <;> rfl

/-- A text is an unbroken line, or an unbroken line in front of a break and a text. -/
theorem lines_cases (text : List Char) :
    Unbroken text ∨
      (∃ line rest, Unbroken line ∧ text = line ++ '\r' :: '\n' :: rest) ∨
      ∃ line c rest, Unbroken line ∧ endsBreak c rest = true ∧ text = line ++ c :: rest := by
  have hsplit := List.takeWhile_append_dropWhile (p := fun c => !isBreak c) (l := text)
  have hline : Unbroken (text.takeWhile fun c => !isBreak c) := fun c hmem => by
    simpa using List.mem_takeWhile_imp hmem
  cases hrest : text.dropWhile fun c => !isBreak c with
  | nil =>
    rw [hrest, List.append_nil] at hsplit
    exact .inl (hsplit ▸ hline)
  | cons c rest =>
    have hbreak : isBreak c = true := by
      have hhead := List.head?_dropWhile_not (fun c => !isBreak c) text
      simpa [hrest] using hhead
    rw [hrest] at hsplit
    by_cases hend : endsBreak c rest = true
    · exact .inr (.inr ⟨_, c, rest, hline, hend, hsplit.symm⟩)
    · rw [endsBreak_iff, not_or, not_and_not_right] at hend
      obtain rfl := (isBreak_iff.mp hbreak).resolve_left hend.1
      obtain ⟨more, rfl⟩ := List.head?_eq_some_iff.mp (hend.2 rfl)
      exact .inr (.inl ⟨_, more, hline, hsplit.symm⟩)

theorem Unbroken.eq_of_append_newline {line line' rest rest' : List Char} (h : Unbroken line)
    (h' : Unbroken line') (heq : line ++ '\n' :: rest = line' ++ '\n' :: rest') : rest = rest' := by
  have hdrop : ∀ {line rest : List Char}, Unbroken line →
      (line ++ '\n' :: rest).dropWhile (fun c => !isBreak c) = '\n' :: rest := by
    intro line rest h
    rw [List.dropWhile_append_of_pos fun c hmem => by simp [h c hmem]]
    rfl
  have hcons := congrArg (List.dropWhile fun c => !isBreak c) heq
  rw [hdrop h, hdrop h'] at hcons
  exact (List.cons.inj hcons).2

theorem lines_induction {P : List Char → Prop} (last : ∀ line, Unbroken line → P line)
    (pair : ∀ line rest, Unbroken line → P rest → P (line ++ '\r' :: '\n' :: rest))
    (single : ∀ line c rest, Unbroken line → endsBreak c rest = true → P rest →
      P (line ++ c :: rest)) (text : List Char) : P text := by
  induction hn : text.length using Nat.strongRecOn generalizing text with
  | _ n ih =>
    rcases lines_cases text with h | ⟨line, rest, h, rfl⟩ | ⟨line, c, rest, h, hend, rfl⟩
    · exact last text h
    · exact pair line rest h (ih _ (by simp [← hn]; omega) rest rfl)
    · exact single line c rest h hend (ih _ (by simp [← hn]; omega) rest rfl)

/-! ## Counting breaks -/

theorem Unbroken.countBreaks_append {line : List Char} (h : Unbroken line) (rest : List Char) :
    countBreaks (line ++ rest) = countBreaks rest := by
  induction line with
  | nil => rfl
  | cons c line ih =>
    obtain ⟨hc, hline⟩ := List.forall_mem_cons.mp h
    rw [List.cons_append, countBreaks_cons, endsBreak_of_not_isBreak hc, ih hline]
    simp

theorem countBreaks_le_append (front rest : List Char) :
    countBreaks rest ≤ countBreaks (front ++ rest) := by
  induction front with
  | nil => exact Nat.le_refl _
  | cons c front ih =>
    rw [List.cons_append, countBreaks_cons]
    omega

theorem countBreaks_pair {line : List Char} (h : Unbroken line) (rest : List Char) :
    countBreaks (line ++ '\r' :: '\n' :: rest) = 1 + countBreaks rest := by
  rw [h.countBreaks_append, countBreaks_cons, countBreaks_cons]
  simp [endsBreak]

theorem countBreaks_single {line : List Char} {c : Char} {rest : List Char} (h : Unbroken line)
    (hend : endsBreak c rest = true) : countBreaks (line ++ c :: rest) = 1 + countBreaks rest := by
  rw [h.countBreaks_append, countBreaks_cons, if_pos hend]

/-! ## Places inside of a break -/

/-- The place between the two texts is between a `\r` and its `\n`. -/
def InsideBreak (front rest : List Char) : Prop :=
  front.getLast? = some '\r' ∧ rest.head? = some '\n'

section InsideBreak

variable {front rest : List Char}

theorem InsideBreak.append_left (h : InsideBreak front rest) (before : List Char) :
    InsideBreak (before ++ front) rest :=
  ⟨by rw [List.getLast?_append, h.1]; rfl, h.2⟩

theorem InsideBreak.append_right (h : InsideBreak front rest) (behind : List Char) :
    InsideBreak front (rest ++ behind) :=
  ⟨h.1, by rw [List.head?_append, h.2]; rfl⟩

theorem InsideBreak.of_append_left {before : List Char} (h : InsideBreak (before ++ front) rest)
    (hsome : front ≠ []) : InsideBreak front rest := by
  obtain ⟨hlast, hhead⟩ := h
  rw [List.getLast?_append, Option.or_of_isSome (List.getLast?_isSome.mpr hsome)] at hlast
  exact ⟨hlast, hhead⟩

theorem Unbroken.not_insideBreak (h : Unbroken front) (rest : List Char) :
    ¬ InsideBreak front rest := by
  rintro ⟨hlast, -⟩
  exact absurd (h _ (List.mem_of_getLast? hlast)) (by decide)

/-- Breaks can be counted in pieces, as long as no break is cut in two. -/
theorem countBreaks_append (h : ¬ InsideBreak front rest) :
    countBreaks (front ++ rest) = countBreaks front + countBreaks rest := by
  induction front with
  | nil => simp
  | cons c front ih =>
    cases front with
    | nil =>
      have hend : endsBreak c rest = endsBreak c [] := by
        rw [Bool.eq_iff_iff, endsBreak_iff, endsBreak_iff]
        simp only [InsideBreak, List.getLast?_singleton, Option.some.injEq, not_and] at h
        exact or_congr_right (and_congr_right fun hc => iff_of_true (h hc) (by simp))
      simp [countBreaks_cons, hend]
    | cons d front =>
      rw [List.cons_append, countBreaks_cons, ih fun hin => h (hin.append_left [c]),
        countBreaks_cons c (d :: front), Nat.add_assoc]
      rfl

/-- A break that is cut in two is counted in both pieces. -/
theorem countBreaks_of_insideBreak (h : InsideBreak front rest) :
    countBreaks front + countBreaks rest = countBreaks (front ++ rest) + 1 := by
  obtain ⟨hlast, hhead⟩ := h
  obtain ⟨start, rfl⟩ := List.getLast?_eq_some_iff.mp hlast
  obtain ⟨more, rfl⟩ := List.head?_eq_some_iff.mp hhead
  have hapart : ∀ text, ¬ InsideBreak start ('\r' :: text) := by simp [InsideBreak]
  rw [List.append_assoc, List.singleton_append, countBreaks_append (hapart _),
    countBreaks_append (hapart _), countBreaks_cons '\r', countBreaks_cons '\r',
    countBreaks_cons '\n']
  simp [endsBreak]
  omega

end InsideBreak

/-! ## Cutting into lines -/

theorem splitLinesFrom_append {line : List Char} (h : Unbroken line) (done : List (List Char))
    (opened rest : List Char) :
    splitLinesFrom done opened (line ++ rest) =
      splitLinesFrom done (line.reverse ++ opened) rest := by
  induction line generalizing opened with
  | nil => rfl
  | cons c line ih =>
    obtain ⟨hc, hline⟩ := List.forall_mem_cons.mp h
    rw [List.cons_append, splitLinesFrom, if_neg (by simp [hc]), ih hline]
    · simp
    · rintro _ rfl -
      cases hc

theorem splitLinesFrom_single {c : Char} {rest : List Char} (h : endsBreak c rest = true)
    (done : List (List Char)) (opened : List Char) :
    splitLinesFrom done opened (c :: rest) = splitLinesFrom (opened.reverse :: done) [] rest := by
  rw [splitLinesFrom, if_pos (isBreak_of_endsBreak h)]
  rintro _ rfl rfl
  simp [endsBreak] at h

theorem splitLinesFrom_eq (done : List (List Char)) (opened text : List Char) :
    splitLinesFrom done opened text = done.reverse ++ splitLinesFrom [] opened text := by
  induction text using lines_induction generalizing done opened with
  | last line hline =>
    have hrun := fun done => splitLinesFrom_append hline done opened []
    rw [List.append_nil] at hrun
    rw [hrun, hrun]
    simp [splitLinesFrom]
  | pair line rest hline ih =>
    rw [splitLinesFrom_append hline, splitLinesFrom_append hline, splitLinesFrom, splitLinesFrom,
      ih, ih [_]]
    simp
  | single line c rest hline hend ih =>
    rw [splitLinesFrom_append hline, splitLinesFrom_append hline, splitLinesFrom_single hend,
      splitLinesFrom_single hend, ih, ih [_]]
    simp

theorem splitLines_unbroken {line : List Char} (h : Unbroken line) : splitLines line = [line] := by
  have hrun := splitLinesFrom_append h [] [] []
  rw [List.append_nil] at hrun
  rw [splitLines, hrun]
  simp [splitLinesFrom]

theorem splitLines_pair {line : List Char} (h : Unbroken line) (rest : List Char) :
    splitLines (line ++ '\r' :: '\n' :: rest) = line :: splitLines rest := by
  rw [splitLines, splitLinesFrom_append h, splitLinesFrom, splitLinesFrom_eq]
  simp [splitLines]

theorem splitLines_single {line : List Char} {c : Char} {rest : List Char} (h : Unbroken line)
    (hend : endsBreak c rest = true) :
    splitLines (line ++ c :: rest) = line :: splitLines rest := by
  rw [splitLines, splitLinesFrom_append h, splitLinesFrom_single hend, splitLinesFrom_eq]
  simp [splitLines]

/-! ## Cutting comments -/

theorem stripCommentsFrom_eq (inComment : Bool) (kept text : List Char) :
    stripCommentsFrom inComment kept text = kept.reverse ++ stripCommentsFrom inComment [] text := by
  induction text generalizing inComment kept with
  | nil => simp [stripCommentsFrom]
  | cons c rest ih =>
    rw [stripCommentsFrom, stripCommentsFrom]
    split
    · exact ih true kept
    · split
      · exact ih true kept
      · rw [ih, ih false [c]]
        simp

theorem stripComments_cons {c : Char} {rest : List Char} (h : c = '-' → rest.head? ≠ some '-') :
    stripComments (c :: rest) = c :: stripComments rest := by
  have hdash : ¬ (c == '-' && rest.head? == some '-') = true := by
    rw [Bool.and_eq_true, beq_iff_eq, beq_iff_eq]
    exact fun hpass => h hpass.1 hpass.2
  rw [stripComments, stripCommentsFrom, Bool.false_and, if_neg Bool.false_ne_true, if_neg hdash,
    stripCommentsFrom_eq]
  rfl

/-- A break ends a comment, so a text can be stripped in pieces. -/
theorem stripCommentsFrom_append {c : Char} (hc : isBreak c = true) (inComment : Bool)
    (front rest : List Char) :
    stripCommentsFrom inComment [] (front ++ c :: rest) =
      stripCommentsFrom inComment [] front ++ c :: stripComments rest := by
  have hdash : (c == '-') = false := by
    rcases isBreak_iff.mp hc with rfl | rfl <;> rfl
  induction front generalizing inComment with
  | nil =>
    show stripCommentsFrom inComment [] (c :: rest) = c :: stripComments rest
    rw [stripCommentsFrom, if_neg (by simp [hc]), if_neg (by simp [hdash]), stripCommentsFrom_eq]
    rfl
  | cons d front ih =>
    have hhead : ((front ++ c :: rest).head? == some '-') = (front.head? == some '-') := by
      cases front with
      | nil => simpa using hdash
      | cons => rfl
    rw [List.cons_append, stripCommentsFrom, stripCommentsFrom, hhead]
    split
    · exact ih true
    · split
      · exact ih true
      · rw [stripCommentsFrom_eq, ih, stripCommentsFrom_eq false [d] front, List.append_assoc]

theorem stripComments_append {c : Char} (hc : isBreak c = true) (front rest : List Char) :
    stripComments (front ++ c :: rest) = stripComments front ++ c :: stripComments rest :=
  stripCommentsFrom_append hc false front rest

theorem stripComments_break {c : Char} (hc : isBreak c = true) (rest : List Char) :
    stripComments (c :: rest) = c :: stripComments rest :=
  stripComments_append hc [] rest

/-- A text can be stripped in pieces in front of a break. -/
theorem stripComments_append_rest {rest : List Char} (h : ∀ c ∈ rest.head?, isBreak c = true)
    (front : List Char) :
    stripComments (front ++ rest) = stripComments front ++ stripComments rest := by
  cases rest with
  | nil => simp [stripComments, stripCommentsFrom]
  | cons c rest => rw [stripComments_append (h c rfl), stripComments_break (h c rfl)]

theorem stripCommentsFrom_subset (inComment : Bool) (text : List Char) :
    ∀ c ∈ stripCommentsFrom inComment [] text, c ∈ text := by
  induction text generalizing inComment with
  | nil => simp [stripCommentsFrom]
  | cons d rest ih =>
    intro c hmem
    rw [stripCommentsFrom] at hmem
    split at hmem
    · exact List.mem_cons_of_mem d (ih true c hmem)
    · split at hmem
      · exact List.mem_cons_of_mem d (ih true c hmem)
      · rw [stripCommentsFrom_eq, List.reverse_singleton, List.singleton_append, List.mem_cons] at hmem
        exact List.mem_cons.mpr (hmem.imp_right (ih false c))

theorem Unbroken.stripComments {line : List Char} (h : Unbroken line) :
    Unbroken (stripComments line) :=
  fun c hmem => h c (stripCommentsFrom_subset false line c hmem)

theorem Unbroken.stripCommentsFrom_true {comment : List Char} (h : Unbroken comment) :
    stripCommentsFrom true [] comment = [] := by
  induction comment with
  | nil => rfl
  | cons c rest ih =>
    obtain ⟨hc, hrest⟩ := List.forall_mem_cons.mp h
    rw [stripCommentsFrom, if_pos (by simp [hc])]
    exact ih hrest

theorem Unbroken.dashes {comment : List Char} (h : Unbroken comment) :
    Unbroken ('-' :: '-' :: comment) := by
  simpa [Unbroken, isBreak] using h

theorem stripComments_comment {comment : List Char} (h : Unbroken comment) :
    stripComments ('-' :: '-' :: comment) = [] := by
  simpa [stripComments, stripCommentsFrom, isBreak] using h.stripCommentsFrom_true

/-- In a line, cutting a comment leaves what is before it. -/
theorem Unbroken.stripComments_prefix {line : List Char} (h : Unbroken line) :
    MlFront.stripComments line <+: line := by
  induction line with
  | nil => exact List.prefix_rfl
  | cons c rest ih =>
    obtain ⟨hc, hrest⟩ := List.forall_mem_cons.mp h
    rw [MlFront.stripComments, stripCommentsFrom, Bool.false_and, if_neg Bool.false_ne_true]
    split
    · rw [Unbroken.stripCommentsFrom_true hrest]
      exact List.nil_prefix
    · rw [stripCommentsFrom_eq]
      exact List.cons_prefix_cons.mpr ⟨rfl, ih hrest⟩

theorem stripComments_comment_newline {comment : List Char} (h : Unbroken comment)
    (rest : List Char) :
    stripComments ('-' :: '-' :: (comment ++ '\n' :: rest)) = '\n' :: stripComments rest := by
  have happend := stripComments_append (c := '\n') (by decide) ('-' :: '-' :: comment) rest
  rwa [stripComments_comment h] at happend

/-- A line that is cut to nothing is empty or starts with a comment. -/
theorem stripComments_eq_nil {line : List Char} (h : stripComments line = []) :
    line = [] ∨ ∃ comment, line = '-' :: '-' :: comment := by
  cases line with
  | nil => exact .inl rfl
  | cons c rest =>
    rw [stripComments, stripCommentsFrom, Bool.false_and, if_neg Bool.false_ne_true] at h
    split at h
    · next hdash =>
      simp only [Bool.and_eq_true, beq_iff_eq] at hdash
      obtain ⟨comment, rfl⟩ := List.head?_eq_some_iff.mp hdash.2
      exact .inr ⟨comment, by rw [hdash.1]⟩
    · rw [stripCommentsFrom_eq] at h
      simp at h

theorem Unbroken.head?_ne {line : List Char} (h : Unbroken line) : line.head? ≠ some '\n' := by
  intro hhead
  obtain ⟨rest, rfl⟩ := List.head?_eq_some_iff.mp hhead
  exact absurd (h '\n' List.mem_cons_self) (by decide)

/-- A `\r` is joined with a `\n` behind it only by cutting a comment between the two. -/
theorem endsBreak_stripComments {c : Char} {rest : List Char} (h : endsBreak c rest = true) :
    endsBreak c (stripComments rest) = true ∨
      c = '\r' ∧ ∃ comment after, Unbroken comment ∧ rest = '-' :: '-' :: (comment ++ '\n' :: after) := by
  rw [endsBreak_iff] at h ⊢
  rcases h with rfl | ⟨rfl, hhead⟩
  · exact .inl (.inl rfl)
  by_cases hjoined : (stripComments rest).head? = some '\n'
  · -- only a line that is cut to nothing lets the break behind it come first
    have hline : ∀ line d more, isBreak d = true → rest = line ++ d :: more → Unbroken line →
        stripComments line = [] ∧ d = '\n' := by
      rintro line d more hd rfl hline
      rw [stripComments_append hd] at hjoined
      cases hcut : stripComments line with
      | nil =>
        rw [hcut] at hjoined
        exact ⟨rfl, by simpa using hjoined⟩
      | cons e cut =>
        rw [hcut] at hjoined
        exact absurd (hcut ▸ by simpa using hjoined) hline.stripComments.head?_ne
    rcases lines_cases rest with hrest | ⟨line, more, hl, rfl⟩ | ⟨line, d, more, hl, hend, rfl⟩
    · exact absurd hjoined hrest.stripComments.head?_ne
    · exact absurd (hline line '\r' _ (by decide) rfl hl).2 (by decide)
    · obtain ⟨hcut, rfl⟩ := hline line d more (isBreak_of_endsBreak hend) rfl hl
      rcases stripComments_eq_nil hcut with rfl | ⟨comment, rfl⟩
      · exact absurd rfl hhead
      · exact .inr ⟨rfl, comment, more, fun c hmem => hl c (by simp [hmem]), rfl⟩
  · exact .inl (.inr ⟨rfl, hjoined⟩)

end MlFront
