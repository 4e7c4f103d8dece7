import MlFront.Proofs.Text.Bytes
import MlFront.Proofs.Text.Lines
import MlFront.Proofs.Text.Pattern

/-!
# Numbers of lines

Lines are counted in one place and cut in another: `countBreaks` looks at characters,
one ahead, and `splitLines` cuts a text at the pattern `lineBreak`. Both find the same
lines (`lines_numbered`). There is one more line than there are breaks, and the breaks in
front of a position say in which line it is.
-/

namespace MlFront

/-- The pattern of a line break: `\r\n` before `\n` and `\r`. -/
def lineBreak : Pattern where
  reach
    | '\r' :: '\n' :: _ => 2
    | '\n' :: _ => 1
    | '\r' :: _ => 1
    | _ => 0
  reach_le text := by
    split <;> simp

/-- `core` is the line without the blanks at its two ends. -/
structure Trims (line core : List Char) : Prop where
  split : ∃ lead trail, line = lead ++ (core ++ trail) ∧ (∀ c ∈ lead, isBlank c = true) ∧
    ∀ c ∈ trail, isBlank c = true
  head : ∀ c ∈ core.head?, isBlank c = false
  last : ∀ c ∈ core.getLast?, isBlank c = false

/-! ## Gaps of a text -/

section Gaps

variable {line rest : List Char} {c : Char}

theorem reach_lineBreak_of_not_isBreak (h : isBreak c = false) (rest : List Char) :
    lineBreak.reach (c :: rest) = 0 := by
  simp only [isBreak, Bool.or_eq_false_iff, beq_eq_false_iff_ne] at h
  simp only [lineBreak]
  split <;> simp_all

theorem reach_lineBreak_of_endsBreak (h : endsBreak c rest = true) :
    lineBreak.reach (c :: rest) = 1 := by
  rcases endsBreak_iff.mp h with rfl | ⟨rfl, hhead⟩
  · rfl
  · simp only [lineBreak]
    split
    · next heq =>
      obtain ⟨-, rfl⟩ := List.cons.inj heq
      exact absurd rfl hhead
    · rfl
    · rfl
    · next hnone => exact absurd rfl (hnone rest)

theorem Unbroken.gapsFrom_append (h : Unbroken line) (start position : Nat) (rest : List Char) :
    lineBreak.gapsFrom start position (line ++ rest) =
      lineBreak.gapsFrom start (position + line.length) rest := by
  induction line generalizing position with
  | nil => rfl
  | cons c line ih =>
    obtain ⟨hc, hline⟩ := List.forall_mem_cons.mp h
    rw [List.cons_append, Pattern.gapsFrom_skip (reach_lineBreak_of_not_isBreak hc _), ih hline,
      List.length_cons, Nat.add_assoc, Nat.add_comm 1]

theorem gapsFrom_unbroken (h : Unbroken line) (start : Nat) :
    lineBreak.gapsFrom start start line = [⟨start, start + line.length⟩] := by
  have hrun := h.gapsFrom_append start start []
  rwa [List.append_nil, Pattern.gapsFrom_nil] at hrun

theorem gapsFrom_pair (h : Unbroken line) (start : Nat) (rest : List Char) :
    lineBreak.gapsFrom start start (line ++ '\r' :: '\n' :: rest) =
      ⟨start, start + line.length⟩ ::
        lineBreak.gapsFrom (start + line.length + 2) (start + line.length + 2) rest := by
  have hreach : lineBreak.reach (['\r', '\n'] ++ rest) = ['\r', '\n'].length := rfl
  rw [h.gapsFrom_append]
  exact Pattern.gapsFrom_take (List.cons_ne_nil _ _) hreach start (start + line.length)

theorem gapsFrom_single (h : Unbroken line) (hend : endsBreak c rest = true) (start : Nat) :
    lineBreak.gapsFrom start start (line ++ c :: rest) =
      ⟨start, start + line.length⟩ ::
        lineBreak.gapsFrom (start + line.length + 1) (start + line.length + 1) rest := by
  have hreach : lineBreak.reach ([c] ++ rest) = [c].length := reach_lineBreak_of_endsBreak hend
  rw [h.gapsFrom_append]
  exact Pattern.gapsFrom_take (List.cons_ne_nil _ _) hreach start (start + line.length)

end Gaps

/-! ## Cutting at breaks -/

theorem splitLines_eq_map_gaps (front text : List Char) :
    (lineBreak.gapsFrom front.length front.length text).map (·.cut (front ++ text)) =
      splitLines text := by
  induction text using lines_induction generalizing front with
  | last line h =>
    have hcut := Span.cut_append front line []
    rw [List.append_nil] at hcut
    rw [gapsFrom_unbroken h, splitLines_unbroken h, List.map_singleton, hcut]
  | pair line rest h ih =>
    have hrest := ih (front ++ line ++ ['\r', '\n'])
    simp only [List.length_append, List.length_cons, List.length_nil, List.append_assoc] at hrest
    rw [gapsFrom_pair h, splitLines_pair h, List.map_cons, Span.cut_append, ← hrest]
    simp [Nat.add_assoc]
  | single line c rest h hend ih =>
    have hrest := ih (front ++ line ++ [c])
    simp only [List.length_append, List.length_cons, List.length_nil, List.append_assoc] at hrest
    rw [gapsFrom_single h hend, splitLines_single h hend, List.map_cons, Span.cut_append, ← hrest]
    simp [Nat.add_assoc]

/-- The lines of a text are what is left when it is split at its breaks. -/
theorem split_lineBreak (text : List Char) : lineBreak.split text = splitLines text :=
  splitLines_eq_map_gaps [] text

theorem length_splitLines (text : List Char) :
    (splitLines text).length = countBreaks text + 1 := by
  induction text using lines_induction with
  | last line h =>
    have hnone := h.countBreaks_append []
    rw [List.append_nil, countBreaks_nil] at hnone
    rw [splitLines_unbroken h, hnone, List.length_singleton]
  | pair line rest h ih =>
    rw [splitLines_pair h, List.length_cons, ih, countBreaks_pair h, Nat.add_comm 1]
  | single line c rest h hend ih =>
    rw [splitLines_single h hend, List.length_cons, ih, countBreaks_single h hend, Nat.add_comm 1]

/-! ## The line of a position -/

/-- A place in a text is in its front or further on. -/
theorem prefix_or_append {front rest left right : List Char}
    (h : front ++ rest = left ++ right) :
    left <+: front ∨ ∃ more, more ≠ [] ∧ left = front ++ more ∧ rest = more ++ right := by
  rcases List.append_eq_append_iff.mp h with ⟨more, rfl, rfl⟩ | ⟨more, rfl, rfl⟩
  · cases more with
    | nil => exact .inl (by simp)
    | cons c more => exact .inr ⟨c :: more, by simp, rfl, rfl⟩
  · exact .inl ⟨more, rfl⟩

/-- A position in the first line, in front of which no line has ended. -/
theorem exists_first {line left : List Char} (h : Unbroken line) (hleft : left <+: line)
    (start : Nat) (gaps : List Span) :
    ∃ span, (⟨start, start + line.length⟩ :: gaps)[countBreaks left]? = some span ∧
      span.Holds (start + left.length) := by
  have hnone := Unbroken.countBreaks_append (fun c hmem => h c (hleft.subset hmem)) []
  rw [List.append_nil, countBreaks_nil] at hnone
  rw [hnone]
  exact ⟨_, rfl, Nat.le_add_right _ _, Nat.add_le_add_left hleft.length_le _⟩

/-- The line that holds a position is the one behind as many others as there are breaks
in front of the position. -/
theorem exists_gap (text : List Char) (start : Nat) {left right : List Char}
    (htext : text = left ++ right) (h : ¬ InsideBreak left right) :
    ∃ span, (lineBreak.gapsFrom start start text)[countBreaks left]? = some span ∧
      span.Holds (start + left.length) := by
  induction text using lines_induction generalizing start left right with
  | last line hline =>
    rw [gapsFrom_unbroken hline]
    exact exists_first hline ⟨right, htext.symm⟩ start []
  | pair line rest hline ih =>
    rw [gapsFrom_pair hline]
    rcases prefix_or_append htext with hleft | ⟨more, hsome, rfl, hmore⟩
    · exact exists_first hline hleft start _
    · rcases more with _ | ⟨c, _ | ⟨d, more⟩⟩
      · exact absurd rfl hsome
      · simp only [List.cons_append, List.nil_append, List.cons.injEq] at hmore
        obtain ⟨rfl, rfl⟩ := hmore
        exact absurd ⟨by simp, rfl⟩ h
      · simp only [List.cons_append, List.cons.injEq] at hmore
        obtain ⟨rfl, rfl, hmore⟩ := hmore
        have hbehind : ¬ InsideBreak more right := fun hin =>
          h (by simpa using hin.append_left (line ++ ['\r', '\n']))
        rw [countBreaks_pair hline, Nat.add_comm 1, List.getElem?_cons_succ]
        simpa [Nat.add_assoc, Nat.add_comm, Nat.add_left_comm] using
          ih (start + line.length + 2) hmore hbehind
  | single line c rest hline hend ih =>
    rw [gapsFrom_single hline hend]
    rcases prefix_or_append htext with hleft | ⟨more, hsome, rfl, hmore⟩
    · exact exists_first hline hleft start _
    · obtain ⟨d, more, rfl⟩ := List.exists_cons_of_ne_nil hsome
      simp only [List.cons_append, List.cons.injEq] at hmore
      obtain ⟨rfl, rfl⟩ := hmore
      have hbehind : ¬ InsideBreak more right := fun hin =>
        h (by simpa using hin.append_left (line ++ [c]))
      have hcut : endsBreak c more = true := by
        rw [endsBreak_iff] at hend ⊢
        refine hend.imp_right fun ⟨hc, hhead⟩ => ⟨hc, fun hmore => hhead ?_⟩
        rw [List.head?_append, hmore]
        rfl
      rw [countBreaks_single hline hcut, Nat.add_comm 1, List.getElem?_cons_succ]
      simpa [Nat.add_assoc, Nat.add_comm, Nat.add_left_comm] using
        ih (start + line.length + 1) rfl hbehind

/-! ## Lines by number -/

theorem trims_trim (line : List Char) : Trims line (trim line) := by
  have hline := List.takeWhile_append_dropWhile (p := isBlank) (l := line)
  have hcore := List.takeWhile_append_dropWhile (p := isBlank) (l := (line.dropWhile isBlank).reverse)
  have hsplit : line.dropWhile isBlank =
      trim line ++ ((line.dropWhile isBlank).reverse.takeWhile isBlank).reverse := by
    rw [trim, ← List.reverse_append, hcore, List.reverse_reverse]
  have hhead := List.head?_dropWhile_not isBlank line
  have hlast := List.head?_dropWhile_not isBlank (line.dropWhile isBlank).reverse
  refine ⟨⟨line.takeWhile isBlank, ((line.dropWhile isBlank).reverse.takeWhile isBlank).reverse,
    ?_, fun c => List.mem_takeWhile_imp, fun c hmem => ?_⟩, fun c hc => ?_, fun c hc => ?_⟩
  · rw [← hsplit, hline]
  · exact List.mem_takeWhile_imp (List.mem_reverse.mp hmem)
  · rw [hsplit, List.head?_append, Option.mem_def.mp hc] at hhead
    simpa using hhead
  · rw [trim, List.getLast?_reverse] at hc
    rw [Option.mem_def.mp hc] at hlast
    simpa using hlast

theorem lineContext_succ {source : String} {index : Nat} {line : List Char}
    (h : (splitLines source.toList)[index]? = some line) :
    lineContext source (index + 1) = String.ofList (trim line) := by
  rw [lineContext, h]

theorem lineContext_eq_empty {source : String} {number : Nat}
    (h : number = 0 ∨ countBreaks source.toList + 1 < number) : lineContext source number = "" := by
  cases number with
  | zero => rfl
  | succ index =>
    have hnone : (splitLines source.toList)[index]? = none := by
      rw [List.getElem?_eq_none_iff, length_splitLines]
      omega
    rw [lineContext, hnone]

/-- A source is cut at its breaks into one line more than it has breaks, whether these
are counted on characters or on bytes. A position that is not between a `\r` and its
`\n` is in one line only, the one whose number is one more than the count of breaks in
front of it. An error shows the line of each such number, without blanks at its ends, and
nothing for other numbers. -/
theorem lines_numbered (source : String) :
    lineBreak.split source.toList = splitLines source.toList ∧
    (splitLines source.toList).length = countBreaks source.toList + 1 ∧
    countBreakBytes source.toUTF8.data.toList = countBreaks source.toList ∧
    (∀ position ≤ source.toList.length,
      ¬ InsideBreak (source.toList.take position) (source.toList.drop position) →
      ∀ index, (∃ span, (lineBreak.gaps source.toList)[index]? = some span ∧
        span.Holds position) ↔ index + 1 = 1 + countBreaks (source.toList.take position)) ∧
    (∀ number, 1 ≤ number → number ≤ countBreaks source.toList + 1 →
      ∃ line, (splitLines source.toList)[number - 1]? = some line ∧
        Trims line (lineContext source number).toList) ∧
    ∀ number, number = 0 ∨ countBreaks source.toList + 1 < number →
      lineContext source number = "" := by
  refine ⟨split_lineBreak _, length_splitLines _, countBreakBytes_toUTF8 source, ?_, ?_,
    fun number => lineContext_eq_empty⟩
  · intro position hle hwhole index
    obtain ⟨span, hspan, hholds⟩ :=
      exists_gap source.toList 0 (List.take_append_drop position _).symm hwhole
    rw [List.length_take, Nat.min_eq_left hle, Nat.zero_add] at hholds
    constructor
    · rintro ⟨other, hother, hin⟩
      rw [Pattern.index_eq_of_holds hother hspan hin hholds, Nat.add_comm]
    · intro hindex
      obtain rfl : index = countBreaks (source.toList.take position) := by omega
      exact ⟨span, hspan, hholds⟩
  · intro number hpos hle
    obtain ⟨index, rfl⟩ := Nat.exists_eq_add_of_le' hpos
    have hlt : index < (splitLines source.toList).length := by
      rw [length_splitLines]
      omega
    have hline := List.getElem?_eq_getElem hlt
    refine ⟨_, hline, ?_⟩
    rw [lineContext_succ hline, String.toList_ofList]
    exact trims_trim _

/-- A `\r` belongs to the break of a `\n` only when this is the next character. -/
example : splitLines "a\r\r\n\nb".toList = [['a'], [], [], ['b']] ∧
    countBreaks "a\r\r\n\nb".toList = 3 := by
  decide

end MlFront
