import MlFront.Error.Report
import MlFront.Proofs.Error.Truth
import MlFront.Proofs.Text.Written
import MlFront.Proofs.Token.Lines

/-!
# Reports tell errors apart

A report is the six lines of `Error.lines` as long as no line break is in the title, the
context or the message. So it is for the errors of a source, which are `Legible`: their
causes quote tokens and limits, their context is one line, and no cause is
`expectedToken`, whose message may be cut in two ways. Such an error is read back from
its lines: the name of the cause and then the cause, the position and the context.
-/

namespace MlFront

/-! ## Lines and tokens -/

theorem unbroken_trim {line : List Char} (h : Unbroken line) : Unbroken (trim line) := by
  unfold trim
  intro c hmem
  rw [List.mem_reverse] at hmem
  have hback := (List.dropWhile_suffix _).subset hmem
  exact h c ((List.dropWhile_suffix _).subset (List.mem_reverse.mp hback))

theorem unbroken_lineContext (source : String) (number : Nat) :
    Unbroken (lineContext source number).toList := by
  unfold lineContext
  split
  · decide
  · split
    · next line hline =>
      rw [String.toList_ofList]
      exact unbroken_trim (mem_splitLines_unbroken line (List.mem_of_getElem? hline))
    · decide

theorem unbroken_of_mem_tokenize {source : String} {token : Token} (h : token ∈ tokenize source) :
    Unbroken token.text.toList := by
  rw [tokenize_eq_scanSource] at h
  obtain ⟨-, -, hblank⟩ := text_of_mem_scan token h
  exact fun c hmem => not_isBreak_of_not_isBlank (hblank c hmem)

/-! ## Causes -/

namespace Cause

/-- The texts that a cause quotes. -/
def texts : Cause → List String
  | unexpectedToken text => [text]
  | expectedToken expected found => [expected, found]
  | expectedRightOperand operator => [operator]
  | internal reason => [reason]
  | _ => []

variable {cause cause' : Cause}

theorem not_mem_name {c : Char} (h : c.isAlpha = false) (cause : Cause) :
    c ∉ cause.name.toList := by
  have hall : cause.name.toList.all Char.isAlpha = true := by
    unfold name
    cases cause <;> dsimp only <;> decide
  intro hmem
  rw [List.all_eq_true.mp hall c hmem] at h
  cases h

theorem unbroken_name (cause : Cause) : Unbroken cause.name.toList :=
  unbroken_iff.mpr ⟨not_mem_name (by decide) cause, not_mem_name (by decide) cause⟩

theorem unbroken_message (h : ∀ text ∈ cause.texts, Unbroken text.toList) :
    Unbroken cause.message.toList := by
  cases cause with
  | unexpectedToken text | internal text =>
    exact unbroken_append (by decide) (h text (by simp [texts]))
  | expectedToken expected found =>
    have hexpected := h expected (by simp [texts])
    have hfound := h found (by simp [texts])
    exact unbroken_append (unbroken_append (unbroken_append (unbroken_append (by decide) hexpected)
      (by decide)) hfound) (by decide)
  | expectedRightOperand operator =>
    exact unbroken_append (unbroken_append (by decide) (h operator (by simp [texts]))) (by decide)
  | _ => decide

theorem unbroken_tip (h : ∀ text ∈ cause.texts, Unbroken text.toList) :
    ∀ tip ∈ cause.tip?, Unbroken tip.toList := by
  cases cause with
  | expectedRightOperand operator =>
    rintro _ ⟨⟩
    exact unbroken_append (unbroken_append (by decide) (h operator (by simp [texts]))) (by decide)
  | _ => simp [tip?] <;> decide

/-- A cause is read back from its name and its message, unless it quotes two texts. -/
theorem eq_of_name_of_message (hone : ∀ expected found, cause ≠ expectedToken expected found)
    (hname : cause.name = cause'.name) (hmessage : cause.message = cause'.message) :
    cause = cause' := by
  cases cause with
  | unexpectedToken text =>
    cases cause' with
    | unexpectedToken text' =>
      obtain rfl : text = text' := (String.append_right_inj _).mp hmessage
      rfl
    | _ => simp [name] at hname
  | expectedToken expected found => exact absurd rfl (hone expected found)
  | expectedRightOperand operator =>
    cases cause' with
    | expectedRightOperand operator' =>
      obtain rfl : operator = operator' :=
        (String.append_right_inj _).mp ((String.append_left_inj _).mp hmessage)
      rfl
    | _ => simp [name] at hname
  | internal reason =>
    cases cause' with
    | internal reason' =>
      obtain rfl : reason = reason' := (String.append_right_inj _).mp hmessage
      rfl
    | _ => simp [name] at hname
  | _ => cases cause' <;> first | rfl | simp [name] at hname

/-- A message with two texts may be cut in two ways. -/
example : (expectedToken "a', got 'b" "c").message = (expectedToken "a" "b', got 'c").message := by
  decide

end Cause

/-! ## Reports -/

namespace Error

/-- The lines of a report. -/
def lines (error : Error) : List (List Char) :=
  let number := Nat.toDigits 10 error.position.line
  let margin := List.replicate (number.length + 1) ' '
  ["Error: ".toList ++ error.title.toList,
    "-> line ".toList ++ (number ++ (", token ".toList ++ Nat.toDigits 10 error.position.tokenIndex)),
    margin ++ ['|'],
    number ++ (" | ".toList ++ error.context.toList),
    margin ++ ['|'],
    margin ++ ("= ".toList ++ error.cause.message.toList)]

/-- An error that can be read back from its report. -/
structure Legible (error : Error) : Prop where
  texts : ∀ text ∈ error.cause.texts, Unbroken text.toList
  context : Unbroken error.context.toList
  noExpectedToken : ∀ expected found, error.cause ≠ .expectedToken expected found

theorem toList_report (error : Error) : error.report.toList = ['\n'].intercalate error.lines := by
  have hlength : error.position.line.repr.length = (Nat.toDigits 10 error.position.line).length := by
    rw [← String.length_toList, Nat.toList_repr]
  simp [report, lines, toString, toList_pushn, List.intercalate, hlength]

/-- The frame on the left of the last four lines. -/
theorem column_lines (error : Error) :
    (error.lines.drop 2).map (·[(Nat.toDigits 10 error.position.line).length + 1]?) =
      [some '|', some '|', some '|', some '='] := by
  simp [lines]

/-- The title starts with the name, and behind the name is a blank or the end. -/
theorem takeWhile_title (error : Error) :
    error.title.toList.takeWhile (· != ' ') = error.cause.name.toList := by
  have hname : error.cause.name.toList.takeWhile (· != ' ') = error.cause.name.toList := by
    rw [List.takeWhile_eq_self_iff]
    rintro c hmem
    exact bne_iff_ne.mpr fun heq => Cause.not_mem_name (by decide) error.cause (heq ▸ hmem)
  unfold title
  split
  · exact hname
  · next tip htip =>
    have htitle : s!"{error.cause.name} ({tip})".toList =
        error.cause.name.toList ++ ' ' :: ("(" ++ tip ++ ")").toList := by simp [toString]
    rw [htitle, takeWhile_append_of_not (by decide), hname]

namespace Legible

variable {error error' : Error}

theorem unbroken_title (h : error.Legible) : Unbroken error.title.toList := by
  unfold title
  split
  · exact error.cause.unbroken_name
  · next tip htip =>
    have htip' := Cause.unbroken_tip h.texts tip htip
    exact unbroken_append (unbroken_append (unbroken_append error.cause.unbroken_name (by decide))
      htip') (by decide)

theorem unbroken_lines (h : error.Legible) : ∀ line ∈ error.lines, Unbroken line := by
  have hmargin : ∀ count, Unbroken (List.replicate count ' ') := unbroken_replicate (by decide)
  have hmessage := Cause.unbroken_message h.texts
  simp only [lines, List.forall_mem_cons]
  refine ⟨?title, ?position, ?above, ?context, ?below, ?message, List.forall_mem_nil _⟩
  case title => exact .append (by decide) h.unbroken_title
  case position =>
    exact .append (by decide) (.append (unbroken_toDigits _)
      (.append (by decide) (unbroken_toDigits _)))
  case above | below => exact .append (hmargin _) (by decide)
  case context => exact .append (unbroken_toDigits _) (.append (by decide) h.context)
  case message => exact .append (hmargin _) (.append (by decide) hmessage)

theorem splitOn_report (h : error.Legible) : error.report.toList.splitOn '\n' = error.lines := by
  rw [toList_report, splitOn_separated h.unbroken_lines (List.cons_ne_nil _ _)]

/-- An error is read back from the lines of its report. -/
theorem eq_of_lines (h : error.Legible) (heq : error.lines = error'.lines) : error = error' := by
  simp only [lines, List.cons.injEq, and_true] at heq
  obtain ⟨htitle, hposition, -, hcontext, -, hmessage⟩ := heq
  have hname : error.cause.name = error'.cause.name := by
    rw [← String.toList_inj, ← takeWhile_title, ← takeWhile_title, List.append_cancel_left htitle]
  -- The comma ends the line number, so the two numbers are read one after the other.
  have hcomma : ", token ".toList = ',' :: " token ".toList := by decide
  rw [List.append_cancel_left_eq, hcomma, List.cons_append, List.cons_append] at hposition
  obtain ⟨hline, hindices⟩ := toDigits_append_inj (by decide) hposition
  rw [hline] at hcontext hmessage
  have hcause : error.cause = error'.cause := by
    refine Cause.eq_of_name_of_message h.noExpectedToken hname (String.toList_inj.mp ?_)
    exact List.append_cancel_left (List.append_cancel_left hmessage)
  have hshown : error.context = error'.context :=
    String.toList_inj.mp (List.append_cancel_left (List.append_cancel_left hcontext))
  obtain ⟨cause, ⟨line, index⟩, context⟩ := error
  obtain ⟨cause', ⟨line', index'⟩, context'⟩ := error'
  obtain rfl : line = line' := hline
  obtain rfl : index = index' := toDigits_inj (List.append_cancel_left hindices)
  obtain rfl : cause = cause' := hcause
  obtain rfl : context = context' := hshown
  rfl

end Legible

end Error

/-! ## Errors of sources -/

/-- What a fault quotes are tokens and limits. -/
theorem Grounds.unbroken_texts {passed rest : List Token} {cause : Cause} {line : Nat}
    (h : Grounds passed rest cause line)
    (htokens : ∀ token ∈ passed ++ rest, Unbroken token.text.toList) :
    ∀ text ∈ cause.texts, Unbroken text.toList := by
  cases h with
  | @unexpectedToken token hrest =>
    have hmem : token ∈ passed ++ rest := List.mem_append_right _ (List.mem_of_mem_head? hrest)
    exact List.forall_mem_singleton.mpr (htokens token hmem)
  | @rightOperand front operator hpassed =>
    have hmem : operator ∈ passed ++ rest := by simp [hpassed]
    exact List.forall_mem_singleton.mpr (htokens operator hmem)
  | tooNested | tooDeep => decide
  | _ => exact List.forall_mem_nil _

theorem legible_of_parseSource {source : String} {error : Error}
    (h : parseSource source = .error error) : error.Legible := by
  obtain ⟨passed, rest, htokens, -, hgrounds⟩ := exists_grounds h
  have hquoted : ∀ token ∈ passed ++ rest, Unbroken token.text.toList := by
    rw [← htokens]
    exact fun token hmem => unbroken_of_mem_tokenize hmem
  refine ⟨hgrounds.unbroken_texts hquoted, ?_, fun expected found hcause => ?_⟩
  · obtain ⟨-, fault, -, -, rfl⟩ := parse_eq_error_iff.mp h
    exact unbroken_lineContext source fault.position.line
  · have htrue := hgrounds.trueAt
    rw [hcause] at htrue
    exact htrue

/-- The report of an error of a source has six lines. On the last four there is, one
blank behind the digits of the line number, a `|`, a `|`, a `|` and a `=`. Two errors of
sources with the same report are the same. -/
theorem reports_faithful :
    (∀ source error, parseSource source = .error error →
      let width := (Nat.toDigits 10 error.position.line).length
      let lines := error.report.toList.splitOn '\n'
      lines.length = 6 ∧
        (lines.drop 2).map (·[width + 1]?) = [some '|', some '|', some '|', some '=']) ∧
    (∀ source source' error error', parseSource source = .error error →
      parseSource source' = .error error' → error.report = error'.report → error = error') := by
  constructor
  · intro source error h width lines
    have hlines : lines = error.lines := (legible_of_parseSource h).splitOn_report
    rw [hlines]
    exact ⟨rfl, error.column_lines⟩
  · intro source source' error error' h h' heq
    refine (legible_of_parseSource h).eq_of_lines ?_
    rw [← (legible_of_parseSource h).splitOn_report, ← (legible_of_parseSource h').splitOn_report,
      heq]

/-- Blanks around a line are not shown, so two sources have one report. -/
theorem reports_faithful_let :
    let error : Error := ⟨.expectedLetIn, ⟨1, 4⟩, "let x = 5"⟩
    let width := (Nat.toDigits 10 error.position.line).length
    let lines := error.report.toList.splitOn '\n'
    parseSource "let x = 5" = .error error ∧ parseSource "  let x = 5 " = .error error ∧
      (lines.length = 6 ∧
        (lines.drop 2).map (·[width + 1]?) = [some '|', some '|', some '|', some '=']) ∧
      (error.report = error.report → error = error) := by
  intro error width lines
  have h : parseSource "let x = 5" = .error error := by decide +kernel
  have h' : parseSource "  let x = 5 " = .error error := by decide +kernel
  exact ⟨h, h', reports_faithful.1 _ error h, reports_faithful.2 _ _ error error h h'⟩

end MlFront
