import MlFront.Proofs.Token.Lines
import MlFront.Proofs.Token.Word

/-!
# Writing tokens back

`render` writes tokens as a source, each on its line and behind a blank. Tokens are
`Lexed` when each has a kind and their lines start at 1 or further down and never go
back up. Just those are read back from what `render` writes, and just those are the
tokens of some source (`lexed_iff`).
-/

namespace MlFront

/-- Writes tokens on from the given line: for each one the line breaks up to its
line, a blank and its text. -/
def renderFrom (line : Nat) : List Token → List Char
  | [] => []
  | token :: rest =>
    List.replicate (token.line - line) '\n' ++
      ' ' :: (token.text.toList ++ renderFrom token.line rest)

/-- The tokens as a source. -/
def render (tokens : List Token) : String :=
  String.ofList (renderFrom 1 tokens)

/-- Each token has a kind, and the lines, from the given one on, never go back up. -/
structure LexedFrom (line : Nat) (tokens : List Token) : Prop where
  kind : ∀ token ∈ tokens, token.kind ≠ .unrecognised
  line_le : ∀ token ∈ tokens, line ≤ token.line
  ordered : tokens.Pairwise fun a b => a.line ≤ b.line

/-- The tokens are such as a source can have. -/
abbrev Lexed (tokens : List Token) : Prop :=
  LexedFrom 1 tokens

namespace LexedFrom

variable {line : Nat} {token : Token} {tokens : List Token}

theorem nil : LexedFrom line [] :=
  ⟨by simp, by simp, .nil⟩

theorem cons_iff :
    LexedFrom line (token :: tokens) ↔
      token.kind ≠ .unrecognised ∧ line ≤ token.line ∧ LexedFrom token.line tokens := by
  constructor
  · rintro ⟨hkind, hle, hordered⟩
    obtain ⟨hhead, hordered⟩ := List.pairwise_cons.mp hordered
    exact ⟨hkind _ List.mem_cons_self, hle _ List.mem_cons_self,
      fun t hmem => hkind t (List.mem_cons_of_mem _ hmem), hhead, hordered⟩
  · rintro ⟨hkind, hle, hrest⟩
    exact ⟨List.forall_mem_cons.mpr ⟨hkind, hrest.kind⟩,
      List.forall_mem_cons.mpr ⟨hle, fun t hmem => Nat.le_trans hle (hrest.line_le t hmem)⟩,
      List.pairwise_cons.mpr ⟨hrest.line_le, hrest.ordered⟩⟩

theorem mono {above : Nat} (h : LexedFrom line tokens) (hle : above ≤ line) :
    LexedFrom above tokens :=
  ⟨h.kind, fun token hmem => Nat.le_trans hle (h.line_le token hmem), h.ordered⟩

end LexedFrom

/-! ## Tokens of a text -/

theorem lexedFrom_scan (line : Nat) (text : List Char) : LexedFrom line (scan line text) := by
  induction text using scan_induction generalizing line with
  | nil => simpa using LexedFrom.nil
  | blank c rest hc ih =>
    rw [scan_blank hc]
    exact (ih _).mono (by split <;> omega)
  | skip c rest hc hreach ih =>
    rw [scan_skip hc hreach]
    exact ih line
  | token c rest hc hreach ih =>
    rw [scan_token hc hreach]
    exact LexedFrom.cons_iff.mpr ⟨hasKind_tokenReach hreach, Nat.le_refl _, ih line⟩

/-! ## What is written is read back -/

section Render

variable {line : Nat} {tokens : List Token}

/-- A token is written behind a line break or a blank. -/
theorem isBlank_of_head_renderFrom : ∀ d ∈ (renderFrom line tokens).head?, isBlank d = true := by
  cases tokens with
  | nil => simp [renderFrom]
  | cons token rest =>
    rw [renderFrom]
    cases token.line - line with
    | zero => simp; decide
    | succ count => simp [List.replicate_succ]; decide

theorem stripComments_replicate (count : Nat) (text : List Char) :
    stripComments (List.replicate count '\n' ++ text) =
      List.replicate count '\n' ++ stripComments text := by
  induction count with
  | zero => rfl
  | succ count ih =>
    rw [List.replicate_succ, List.cons_append, stripComments_cons (fun h => absurd h (by decide)),
      ih, List.cons_append]

/-- No comment starts in what is written. -/
theorem stripComments_renderFrom (h : LexedFrom line tokens) :
    stripComments (renderFrom line tokens) = renderFrom line tokens := by
  induction tokens generalizing line with
  | nil => rfl
  | cons token rest ih =>
    obtain ⟨hkind, -, hrest⟩ := LexedFrom.cons_iff.mp h
    obtain ⟨-, -, hdash⟩ := isWord_iff.mpr hkind
    have hhead : (renderFrom token.line rest).head? ≠ some '-' := fun hhead =>
      absurd (isBlank_of_head_renderFrom '-' hhead) (by decide)
    rw [renderFrom, stripComments_replicate, stripComments_cons (fun h => absurd h (by decide)),
      stripComments_word hdash hhead, ih hrest]

theorem scan_replicate (count line : Nat) (text : List Char) :
    scan line (List.replicate count '\n' ++ text) = scan (line + count) text := by
  induction count generalizing line with
  | zero => rfl
  | succ count ih =>
    rw [List.replicate_succ, List.cons_append, scan_blank (by decide), if_pos (by simp [endsBreak]),
      ih, Nat.add_right_comm, Nat.add_assoc]

theorem scan_renderFrom (h : LexedFrom line tokens) :
    scan line (renderFrom line tokens) = tokens := by
  induction tokens generalizing line with
  | nil => exact scan_nil
  | cons token rest ih =>
    obtain ⟨hkind, hle, hrest⟩ := LexedFrom.cons_iff.mp h
    rw [renderFrom, scan_replicate, Nat.add_sub_cancel' hle, scan_blank (by decide),
      endsBreak_of_not_isBreak (by decide), if_neg Bool.false_ne_true,
      scan_word (isWord_iff.mpr hkind) isBlank_of_head_renderFrom, ih hrest]

end Render

theorem lexed_tokenize (source : String) : Lexed (tokenize source) := by
  rw [tokenize_eq_scanSource]
  exact lexedFrom_scan 1 _

theorem tokenize_render {tokens : List Token} (h : Lexed tokens) :
    tokenize (render tokens) = tokens := by
  rw [tokenize_eq_scanSource, scanSource, render, String.toList_ofList, stripComments_renderFrom h]
  exact scan_renderFrom h

/-- Dashes in a row are written apart, and lines are skipped. -/
example : render [⟨"-", 2⟩, ⟨"-", 2⟩, ⟨"x", 4⟩] = "\n - -\n\n x" := by decide

/-- Tokens are read back from what is written of them just when each has a kind and
their lines are counted from 1 and never go back up. The tokens of every source are
of this sort, and so they are just the tokens that some source has. -/
theorem lexed_iff (tokens : List Token) :
    (Lexed tokens ↔ tokenize (render tokens) = tokens) ∧ (∀ source, Lexed (tokenize source)) ∧
      (Lexed tokens ↔ ∃ source, tokenize source = tokens) := by
  have hread : Lexed tokens ↔ tokenize (render tokens) = tokens :=
    ⟨tokenize_render, fun h => h ▸ lexed_tokenize _⟩
  refine ⟨hread, lexed_tokenize, fun h => ⟨_, tokenize_render h⟩, ?_⟩
  rintro ⟨source, rfl⟩
  exact lexed_tokenize source

end MlFront
