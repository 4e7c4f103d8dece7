import Mathlib.Data.List.Basic

/-!
# Patterns

A pattern says how many characters it takes from the front of a text. In a text it
is found from the left on and without overlap: `Pattern.spans` are the stretches that
it takes, and `Pattern.gaps` what stands before, between and behind them. A text is
split at a pattern into its gaps, and cleared of it by joining them.
-/

namespace MlFront

/-- A stretch of a text between two positions. A position is the number of
characters in front of it. -/
structure Span where
  start : Nat
  stop : Nat
  deriving DecidableEq, Repr

namespace Span

/-- The characters of the text that are in the span. -/
def cut (span : Span) (text : List Char) : List Char :=
  (text.take span.stop).drop span.start

/-- Whether the position is in the span or at one of its ends. -/
def Holds (span : Span) (position : Nat) : Prop :=
  span.start ≤ position ∧ position ≤ span.stop

theorem cut_append (front middle rest : List Char) :
    cut ⟨front.length, front.length + middle.length⟩ (front ++ (middle ++ rest)) = middle := by
  rw [cut, ← List.append_assoc, ← List.length_append, List.take_left, List.drop_left]

end Span

/-- A pattern, as the number of characters that it takes from the front of a text;
0 where it takes none. -/
structure Pattern where
  reach : List Char → Nat
  reach_le (text : List Char) : reach text ≤ text.length

namespace Pattern

/-- The spans that the pattern takes in a text that starts at `position`. -/
def spansFrom (p : Pattern) (position : Nat) : List Char → List Span
  | [] => []
  | c :: rest =>
    if p.reach (c :: rest) = 0 then p.spansFrom (position + 1) rest
    else
      ⟨position, position + p.reach (c :: rest)⟩ ::
        p.spansFrom (position + p.reach (c :: rest)) (rest.drop (p.reach (c :: rest) - 1))
  termination_by text => text.length
  decreasing_by all_goals simp; try omega

/-- The spans that the pattern takes in a text. -/
def spans (p : Pattern) (text : List Char) : List Span :=
  p.spansFrom 0 text

/-- What the spans leave between `start` and `stop`. -/
def between (start stop : Nat) : List Span → List Span
  | [] => [⟨start, stop⟩]
  | span :: spans => ⟨start, span.start⟩ :: between span.stop stop spans

/-- The gaps of a text that starts at `position`, when the first of them starts at `start`. -/
def gapsFrom (p : Pattern) (start position : Nat) (text : List Char) : List Span :=
  between start (position + text.length) (p.spansFrom position text)

/-- The gaps that the pattern leaves in a text. -/
def gaps (p : Pattern) (text : List Char) : List Span :=
  p.gapsFrom 0 0 text

/-- The text split at the pattern. -/
def split (p : Pattern) (text : List Char) : List (List Char) :=
  (p.gaps text).map (·.cut text)

/-- The text without what the pattern takes. -/
def erase (p : Pattern) (text : List Char) : List Char :=
  (p.split text).flatten

/-- A text is empty, or the pattern takes something from its front, or it does not. -/
theorem induction (p : Pattern) {P : List Char → Prop} (nil : P [])
    (skip : ∀ c rest, p.reach (c :: rest) = 0 → P rest → P (c :: rest))
    (take : ∀ front rest, front ≠ [] → p.reach (front ++ rest) = front.length → P rest →
      P (front ++ rest)) (text : List Char) : P text := by
  induction hn : text.length using Nat.strongRecOn generalizing text with
  | _ n ih =>
    cases text with
    | nil => exact nil
    | cons c rest =>
      by_cases hreach : p.reach (c :: rest) = 0
      · exact skip c rest hreach (ih _ (by simp [← hn]) rest rfl)
      · have hle := p.reach_le (c :: rest)
        have hsplit := List.take_append_drop (p.reach (c :: rest)) (c :: rest)
        rw [← hsplit]
        refine take _ _ ?_ ?_ (ih _ ?_ _ rfl)
        · simpa using hreach
        · rw [hsplit, List.length_take, Nat.min_eq_left hle]
        · rw [← hn, List.length_drop]
          omega

section Spans

variable {p : Pattern} {c : Char} {front rest : List Char}

theorem spansFrom_skip (h : p.reach (c :: rest) = 0) (position : Nat) :
    p.spansFrom position (c :: rest) = p.spansFrom (position + 1) rest := by
  rw [spansFrom, if_pos h]

theorem spansFrom_take (hfront : front ≠ []) (h : p.reach (front ++ rest) = front.length)
    (position : Nat) :
    p.spansFrom position (front ++ rest) =
      ⟨position, position + front.length⟩ :: p.spansFrom (position + front.length) rest := by
  obtain ⟨c, more, rfl⟩ := List.exists_cons_of_ne_nil hfront
  rw [List.cons_append] at h ⊢
  rw [spansFrom, h, if_neg (by simp), List.length_cons, Nat.add_sub_cancel, List.drop_left]

end Spans

section Gaps

variable {p : Pattern} {c : Char} {front rest : List Char}

theorem gapsFrom_nil (p : Pattern) (start position : Nat) :
    p.gapsFrom start position [] = [⟨start, position⟩] := by
  rw [gapsFrom, spansFrom]
  rfl

theorem gapsFrom_skip (h : p.reach (c :: rest) = 0) (start position : Nat) :
    p.gapsFrom start position (c :: rest) = p.gapsFrom start (position + 1) rest := by
  rw [gapsFrom, gapsFrom, spansFrom_skip h, List.length_cons, Nat.add_right_comm, Nat.add_assoc]

theorem gapsFrom_take (hfront : front ≠ []) (h : p.reach (front ++ rest) = front.length)
    (start position : Nat) :
    p.gapsFrom start position (front ++ rest) =
      ⟨start, position⟩ ::
        p.gapsFrom (position + front.length) (position + front.length) rest := by
  rw [gapsFrom, gapsFrom, spansFrom_take hfront h, between, List.length_append, Nat.add_assoc]

theorem start_le_of_mem_gapsFrom {start position : Nat} (hle : start ≤ position)
    (text : List Char) : ∀ span ∈ p.gapsFrom start position text, start ≤ span.start := by
  induction text using p.induction generalizing start position with
  | nil => simp [gapsFrom_nil]
  | skip c rest h ih =>
    rw [gapsFrom_skip h]
    exact ih (Nat.le_succ_of_le hle)
  | take front rest hfront h ih =>
    rw [gapsFrom_take hfront h, List.forall_mem_cons]
    exact ⟨Nat.le_refl _, fun span hmem =>
      Nat.le_trans (Nat.le_trans hle (Nat.le_add_right _ _)) (ih (Nat.le_refl _) span hmem)⟩

/-- A gap ends before the next one starts. -/
theorem gapsFrom_pairwise (start position : Nat) (text : List Char) :
    (p.gapsFrom start position text).Pairwise fun a b => a.stop < b.start := by
  induction text using p.induction generalizing start position with
  | nil => simp [gapsFrom_nil]
  | skip c rest h ih =>
    rw [gapsFrom_skip h]
    exact ih start (position + 1)
  | take front rest hfront h ih =>
    have hlength := List.length_pos_iff.mpr hfront
    rw [gapsFrom_take hfront h, List.pairwise_cons]
    refine ⟨fun span hmem => ?_, ih _ _⟩
    have := start_le_of_mem_gapsFrom (Nat.le_refl _) rest span hmem
    show position < span.start
    omega

theorem not_lt_of_holds {text : List Char} {i j position : Nat} {a b : Span}
    (ha : (p.gaps text)[i]? = some a) (hb : (p.gaps text)[j]? = some b) (hai : a.Holds position)
    (hbj : b.Holds position) : ¬ i < j := by
  intro hlt
  obtain ⟨hi, rfl⟩ := List.getElem?_eq_some_iff.mp ha
  obtain ⟨hj, rfl⟩ := List.getElem?_eq_some_iff.mp hb
  have hapart : (p.gaps text)[i].stop < (p.gaps text)[j].start :=
    List.pairwise_iff_getElem.mp (gapsFrom_pairwise 0 0 text) i j hi hj hlt
  have := hai.2
  have := hbj.1
  omega

/-- No two gaps hold the same position. -/
theorem index_eq_of_holds {text : List Char} {i j position : Nat} {a b : Span}
    (ha : (p.gaps text)[i]? = some a) (hb : (p.gaps text)[j]? = some b) (hai : a.Holds position)
    (hbj : b.Holds position) : i = j :=
  Nat.le_antisymm (Nat.not_lt.mp (not_lt_of_holds hb ha hbj hai))
    (Nat.not_lt.mp (not_lt_of_holds ha hb hai hbj))

end Gaps

end Pattern

end MlFront
