import Mathlib.Data.List.SplitBy
import MlFront.Proofs.Text.Lines
import MlFront.Proofs.Text.Pattern

/-!
# Cutting comments

`stripComments` reads a text once and remembers whether it is in a comment. It does what
two plainer functions do. It clears the text of the pattern `comment`, and it keeps of
every run of characters between breaks what is before the first `--` (`strips_runs`).

No break is in a comment, but a `\r` and a `\n` with only a comment between them are one
break when it is gone. The text has that many breaks fewer (`breaks_lost`).
-/

namespace MlFront

/-- The pattern of a comment: `--` and what is behind it up to the next break. -/
def comment : Pattern where
  reach
    | '-' :: '-' :: rest => 2 + (rest.takeWhile fun c => !isBreak c).length
    | _ => 0
  reach_le text := by
    split
    · next rest =>
      have := (List.takeWhile_sublist (fun c => !isBreak c) (l := rest)).length_le
      simp only [List.length_cons]
      omega
    · exact Nat.zero_le _

/-- Whether the span has a `\r` of the text directly before it and a `\n` directly behind it. -/
def Span.isInBreak (text : List Char) (span : Span) : Bool :=
  (text.take span.start).getLast? == some '\r' && (text.drop span.stop).head? == some '\n'

/-- The maximal runs of characters that all belong to breaks, or all do not. -/
def breakRuns (text : List Char) : List (List Char) :=
  text.splitBy fun a b => isBreak a == isBreak b

/-- The text up to its first `--`. -/
def beforeDashes : List Char → List Char
  | [] => []
  | c :: rest => if ['-', '-'].isPrefixOf (c :: rest) then [] else c :: beforeDashes rest

/-- Keeps a run of breaks, and a run of other characters up to its first `--`. -/
def cutRun (run : List Char) : List Char :=
  if run.any isBreak then run else beforeDashes run

/-! ## Where comments are -/

section Comment

variable {c : Char} {body rest : List Char}

theorem reach_comment_skip (h : c = '-' → rest.head? ≠ some '-') :
    comment.reach (c :: rest) = 0 := by
  simp only [comment]
  split
  · next heq =>
    obtain ⟨rfl, rfl⟩ := List.cons.inj heq
    exact absurd rfl (h rfl)
  · rfl

theorem reach_comment_take (h : Unbroken body) (hrest : ∀ c ∈ rest.head?, isBreak c = true) :
    comment.reach (('-' :: '-' :: body) ++ rest) = ('-' :: '-' :: body).length := by
  have hnone : rest.takeWhile (fun c => !isBreak c) = [] := by
    cases rest with
    | nil => rfl
    | cons c rest => simp [hrest c rfl]
  simp only [comment, List.cons_append]
  rw [List.takeWhile_append_of_pos fun c hmem => by simp [h c hmem], hnone]
  simp only [List.append_nil, List.length_cons]
  omega

theorem stripComments_take (h : Unbroken body) (hrest : ∀ c ∈ rest.head?, isBreak c = true) :
    stripComments ('-' :: '-' :: (body ++ rest)) = stripComments rest := by
  have hcut := stripComments_append_rest hrest ('-' :: '-' :: body)
  rwa [stripComments_comment h, List.nil_append] at hcut

/-- A comment ends in front of a break or at the end of the text. -/
theorem comments_induction {P : List Char → Prop} (nil : P [])
    (skip : ∀ c rest, (c = '-' → rest.head? ≠ some '-') → P rest → P (c :: rest))
    (take : ∀ body rest, Unbroken body → (∀ c ∈ rest.head?, isBreak c = true) → P rest →
      P ('-' :: '-' :: (body ++ rest))) (text : List Char) : P text := by
  induction hn : text.length using Nat.strongRecOn generalizing text with
  | _ n ih =>
    cases text with
    | nil => exact nil
    | cons c rest =>
      by_cases hdashes : c = '-' → rest.head? ≠ some '-'
      · exact skip c rest hdashes (ih _ (by simp [← hn]) rest rfl)
      · obtain ⟨rfl, hhead⟩ := Classical.not_imp.mp hdashes
        obtain ⟨more, rfl⟩ := List.head?_eq_some_iff.mp (not_not.mp hhead)
        have hsplit := List.takeWhile_append_dropWhile (p := fun c => !isBreak c) (l := more)
        have hle := (List.dropWhile_sublist (fun c => !isBreak c) (l := more)).length_le
        have hbody : Unbroken (more.takeWhile fun c => !isBreak c) := fun c hmem => by
          simpa using List.mem_takeWhile_imp hmem
        have hrest : ∀ c ∈ (more.dropWhile fun c => !isBreak c).head?, isBreak c = true := by
          intro c hc
          have hhead := List.head?_dropWhile_not (fun c => !isBreak c) more
          rw [Option.mem_def.mp hc] at hhead
          simpa using hhead
        rw [← hsplit]
        refine take _ _ hbody hrest (ih _ ?_ _ rfl)
        simp only [List.length_cons] at hn
        omega

end Comment

/-! ## Clearing a text of comments -/

theorem flatten_gaps_comment (before opened text : List Char) :
    ((comment.gapsFrom before.length (before.length + opened.length) text).map
      (·.cut (before ++ (opened ++ text)))).flatten = opened ++ stripComments text := by
  induction text using comments_induction generalizing before opened with
  | nil =>
    rw [Pattern.gapsFrom_nil, List.map_singleton, Span.cut_append]
    simp [stripComments, stripCommentsFrom]
  | skip c rest h ih =>
    have hrest := ih before (opened ++ [c])
    rw [Pattern.gapsFrom_skip (reach_comment_skip h), stripComments_cons h]
    simpa [Nat.add_assoc] using hrest
  | take body rest hbody hrest ih =>
    have htake := Pattern.gapsFrom_take (List.cons_ne_nil _ _) (reach_comment_take hbody hrest)
      before.length (before.length + opened.length)
    have hbehind := ih (before ++ (opened ++ '-' :: '-' :: body)) []
    rw [List.cons_append, List.cons_append] at htake
    rw [htake, List.map_cons, List.flatten_cons, Span.cut_append, stripComments_take hbody hrest]
    simpa [Nat.add_assoc] using hbehind

/-- What is left of a text is what is left when the comments in it are taken out. -/
theorem erase_comment (text : List Char) : comment.erase text = stripComments text :=
  flatten_gaps_comment [] [] text

/-! ## Cutting runs -/

theorem stripComments_breaks {run : List Char} (h : ∀ c ∈ run, isBreak c = true)
    (rest : List Char) : stripComments (run ++ rest) = run ++ stripComments rest := by
  induction run with
  | nil => rfl
  | cons c run ih =>
    obtain ⟨hc, hrun⟩ := List.forall_mem_cons.mp h
    rw [List.cons_append, stripComments_break hc, ih hrun, List.cons_append]

theorem Unbroken.stripComments_eq {run : List Char} (h : Unbroken run) :
    MlFront.stripComments run = beforeDashes run := by
  induction run with
  | nil => rfl
  | cons c rest ih =>
    obtain ⟨-, hrest⟩ := List.forall_mem_cons.mp h
    rw [beforeDashes]
    split
    · next hdashes =>
      obtain ⟨more, hmore⟩ := List.isPrefixOf_iff_prefix.mp hdashes
      have hbody : Unbroken more := fun d hmem =>
        h d (hmore ▸ List.mem_append_right _ hmem)
      rw [← hmore]
      exact stripComments_comment hbody
    · next hdashes =>
      rw [stripComments_cons, ih hrest]
      rintro rfl hhead
      obtain ⟨more, rfl⟩ := List.head?_eq_some_iff.mp hhead
      exact hdashes (by simp)

theorem breaks_or_unbroken {run : List Char}
    (h : run.IsChain fun a b => (isBreak a == isBreak b) = true) :
    (∀ c ∈ run, isBreak c = true) ∨ Unbroken run := by
  induction run with
  | nil => exact .inl (by simp)
  | cons c run ih =>
    cases run with
    | nil => cases hc : isBreak c <;> simp [Unbroken, hc]
    | cons d run =>
      obtain ⟨hsame, hrun⟩ := List.isChain_cons_cons.mp h
      have hcons : ∀ b, (∀ e ∈ d :: run, isBreak e = b) → ∀ e ∈ c :: d :: run, isBreak e = b :=
        fun b hall => List.forall_mem_cons.mpr
          ⟨(beq_iff_eq.mp hsame).trans (hall d List.mem_cons_self), hall⟩
      exact (ih hrun).imp (hcons true) (hcons false)

/-- A run that is not of breaks ends in front of one, and a comment in it ends there. -/
theorem flatMap_cutRun {runs : List (List Char)} (hsome : [] ∉ runs)
    (hruns : ∀ run ∈ runs, run.IsChain fun a b => (isBreak a == isBreak b) = true)
    (hnext : runs.IsChain fun a b =>
      ∃ ha hb, (isBreak (a.getLast ha) == isBreak (b.head hb)) = false) :
    runs.flatMap cutRun = stripComments runs.flatten := by
  induction runs with
  | nil => rfl
  | cons run runs ih =>
    obtain ⟨hrun, hmore⟩ := List.forall_mem_cons.mp hruns
    obtain ⟨hne, hsome⟩ := not_or.mp (mt List.mem_cons.mpr hsome)
    rw [List.flatMap_cons, List.flatten_cons, ih hsome hmore hnext.tail]
    rcases breaks_or_unbroken hrun with hbreaks | hline
    · have hany : run.any isBreak = true := by
        obtain ⟨c, hmem⟩ := List.exists_mem_of_ne_nil run (Ne.symm hne)
        exact List.any_eq_true.mpr ⟨c, hmem, hbreaks c hmem⟩
      rw [cutRun, if_pos hany, stripComments_breaks hbreaks]
    · have hany : ¬ run.any isBreak = true := by
        rw [List.any_eq_true]
        rintro ⟨c, hmem, hc⟩
        rw [hline c hmem] at hc
        cases hc
      have hrest : ∀ c ∈ runs.flatten.head?, isBreak c = true := by
        cases runs with
        | nil => simp
        | cons next runs =>
          obtain ⟨⟨ha, hb, hdiffer⟩, -⟩ := List.isChain_cons_cons.mp hnext
          obtain ⟨d, next, rfl⟩ := List.exists_cons_of_ne_nil hb
          rw [hline _ (List.getLast_mem ha), List.head_cons] at hdiffer
          simpa using hdiffer
      rw [cutRun, if_neg hany, stripComments_append_rest hrest, hline.stripComments_eq]

theorem flatMap_breakRuns (text : List Char) :
    (breakRuns text).flatMap cutRun = stripComments text := by
  have hcut := flatMap_cutRun (List.nil_notMem_splitBy _ text)
    (fun run hmem => List.isChain_of_mem_splitBy hmem)
    (List.isChain_getLast_head_splitBy (fun a b => isBreak a == isBreak b) text)
  rwa [List.flatten_splitBy] at hcut

/-! ## What is left holds no comment -/

theorem head?_of_head?_stripComments (text : List Char)
    (h : (stripComments text).head? = some '-') : text.head? = some '-' := by
  induction text using comments_induction with
  | nil => simp [stripComments, stripCommentsFrom] at h
  | skip c rest hdashes _ =>
    rw [stripComments_cons hdashes] at h
    exact h
  | take body rest _ _ _ => rfl

theorem not_infix_stripComments (text : List Char) : ¬ ['-', '-'] <:+: stripComments text := by
  induction text using comments_induction with
  | nil => simp [stripComments, stripCommentsFrom]
  | skip c rest hdashes ih =>
    rw [stripComments_cons hdashes, List.infix_cons_iff, not_or]
    refine ⟨fun hprefix => ?_, ih⟩
    obtain ⟨rfl, more, hmore⟩ := List.cons_prefix_cons.mp hprefix
    exact hdashes rfl (head?_of_head?_stripComments rest (by rw [← hmore]; rfl))
  | take body rest hbody hrest ih =>
    rw [stripComments_take hbody hrest]
    exact ih

theorem stripComments_of_not_infix {text : List Char} (h : ¬ ['-', '-'] <:+: text) :
    stripComments text = text := by
  induction text with
  | nil => rfl
  | cons c rest ih =>
    rw [List.infix_cons_iff, not_or] at h
    rw [stripComments_cons, ih h.2]
    rintro rfl hhead
    obtain ⟨more, rfl⟩ := List.head?_eq_some_iff.mp hhead
    exact h.1 ⟨more, rfl⟩

/-- Comments are cut run by run, each run of characters between breaks in front of its
first `--`, and this takes out just the comments. No `--` is left, so there is nothing to
cut a second time. -/
theorem strips_runs (source : String) :
    stripComments source.toList = (breakRuns source.toList).flatMap cutRun ∧
    stripComments source.toList = comment.erase source.toList ∧
    ¬ ['-', '-'] <:+: stripComments source.toList ∧
    stripComments (stripComments source.toList) = stripComments source.toList := by
  have hnone := not_infix_stripComments source.toList
  exact ⟨(flatMap_breakRuns _).symm, (erase_comment _).symm, hnone,
    stripComments_of_not_infix hnone⟩

/-! ## Breaks that are lost -/

/-- What stands between two pieces of a text keeps their breaks apart. -/
theorem countBreaks_around {middle : List Char} (h : Unbroken middle) (hsome : middle ≠ [])
    (front rest : List Char) :
    countBreaks (front ++ (middle ++ rest)) = countBreaks front + countBreaks rest := by
  have hapart : ¬ InsideBreak front (middle ++ rest) := by
    rintro ⟨-, hhead⟩
    rw [List.head?_append_of_ne_nil _ hsome] at hhead
    exact h.head?_ne hhead
  rw [countBreaks_append hapart, h.countBreaks_append]

theorem head?_stripComments {rest : List Char} (h : ∀ c ∈ rest.head?, isBreak c = true) :
    (stripComments rest).head? = rest.head? := by
  cases rest with
  | nil => rfl
  | cons c rest => rw [stripComments_break (h c rfl), List.head?_cons, List.head?_cons]

theorem isInBreak_iff (front middle rest : List Char) :
    Span.isInBreak (front ++ (middle ++ rest)) ⟨front.length, front.length + middle.length⟩ = true ↔
      InsideBreak front rest := by
  have hrest : (front ++ (middle ++ rest)).drop (front.length + middle.length) = rest := by
    rw [← List.append_assoc, ← List.length_append, List.drop_left]
  rw [Span.isInBreak, List.take_left, hrest, Bool.and_eq_true, beq_iff_eq, beq_iff_eq, InsideBreak]

/-- Taking out the comments behind `front`, one after the other, costs a break for each of
them that stands in one. -/
theorem countBreaks_append_stripComments (front text : List Char) :
    countBreaks (front ++ text) = countBreaks (front ++ stripComments text) +
      (comment.spansFrom front.length text).countP (·.isInBreak (front ++ text)) := by
  induction text using comments_induction generalizing front with
  | nil => simp [stripComments, stripCommentsFrom, Pattern.spansFrom]
  | skip c rest hdashes ih =>
    have hrest := ih (front ++ [c])
    rw [stripComments_cons hdashes, Pattern.spansFrom_skip (reach_comment_skip hdashes)]
    simpa using hrest
  | take body rest hbody hrest ih =>
    have htake := Pattern.spansFrom_take (List.cons_ne_nil _ _) (reach_comment_take hbody hrest)
      front.length
    have hbehind := ih (front ++ '-' :: '-' :: body)
    have haround := countBreaks_around hbody.dashes (List.cons_ne_nil _ _) front
    have hin := isInBreak_iff front ('-' :: '-' :: body) rest
    have hsame : InsideBreak front (stripComments rest) ↔ InsideBreak front rest := by
      rw [InsideBreak, head?_stripComments hrest, InsideBreak]
    rw [List.append_assoc, List.append_assoc, haround, haround, List.length_append] at hbehind
    rw [stripComments_take hbody hrest, ← List.cons_append, ← List.cons_append, htake,
      List.countP_cons, haround]
    by_cases hjoined : InsideBreak front rest
    · have hcount := countBreaks_of_insideBreak (hsame.mpr hjoined)
      rw [if_pos (hin.mpr hjoined)]
      omega
    · have hcount := countBreaks_append (mt hsame.mp hjoined)
      rw [if_neg (mt hin.mp hjoined)]
      omega

/-- Cutting the comments of a source costs it just as many breaks as there are comments
with a `\r` directly before them and a `\n` directly behind them. -/
theorem breaks_lost (source : String) :
    stripComments source.toList = comment.erase source.toList ∧
    countBreaks source.toList = countBreaks (stripComments source.toList) +
      (comment.spans source.toList).countP (·.isInBreak source.toList) :=
  ⟨(erase_comment _).symm, countBreaks_append_stripComments [] source.toList⟩

/-- The second comment stands in a break, the first and the last one do not. -/
example : (comment.spans "a--b\r--c\n--d\r\n".toList).map
    (·.isInBreak "a--b\r--c\n--d\r\n".toList) = [false, true, false] := by
  decide +kernel

end MlFront
