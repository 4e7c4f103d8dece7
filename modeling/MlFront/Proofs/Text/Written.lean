import Mathlib.Data.List.Basic
import MlFront.Proofs.Text.Lines

/-!
# Texts that are written in lines

Outlines and reports are written line by line, with blanks in front and numbers in
between. Cut at the line feeds, such a text gives its lines back as long as each of them
is `Unbroken`.
-/

namespace MlFront

theorem toList_pushn (text : String) (c : Char) (count : Nat) :
    (text.pushn c count).toList = text.toList ++ List.replicate count c := by
  induction count with
  | zero => exact (List.append_nil _).symm
  | succ count ih =>
    have hpush : text.pushn c (count + 1) = (text.pushn c count).push c := rfl
    rw [hpush, String.toList_push, ih, List.append_assoc, List.replicate_succ']

/-! ## Numbers -/

theorem not_mem_toDigits {c : Char} (h : c.isDigit = false) (number : Nat) :
    c ∉ Nat.toDigits 10 number := by
  intro hmem
  rw [Nat.isDigit_of_mem_toDigits (by decide) (by decide) hmem] at h
  cases h

theorem toDigits_inj {number number' : Nat} (h : Nat.toDigits 10 number = Nat.toDigits 10 number') :
    number = number' := by
  calc number = Nat.ofDigitChars 10 (Nat.toDigits 10 number) 0 := Nat.ofDigitChars_ten_toDigits.symm
    _ = Nat.ofDigitChars 10 (Nat.toDigits 10 number') 0 := by rw [h]
    _ = number' := Nat.ofDigitChars_ten_toDigits

/-- A number is read back from in front of a character that is no digit. -/
theorem toDigits_append_inj {number number' : Nat} {c : Char} {rest rest' : List Char}
    (hc : c.isDigit = false)
    (heq : Nat.toDigits 10 number ++ c :: rest = Nat.toDigits 10 number' ++ c :: rest') :
    number = number' ∧ rest = rest' := by
  have hdigits : ∀ (number : Nat) (rest : List Char),
      (Nat.toDigits 10 number ++ c :: rest).takeWhile Char.isDigit = Nat.toDigits 10 number := by
    intro number rest
    rw [List.takeWhile_append_of_pos fun d => Nat.isDigit_of_mem_toDigits (by decide) (by decide),
      List.takeWhile_cons_of_neg (Bool.eq_false_iff.mp hc), List.append_nil]
  have hnumbers := congrArg (List.takeWhile Char.isDigit) heq
  rw [hdigits, hdigits] at hnumbers
  obtain rfl : number = number' := toDigits_inj hnumbers
  exact ⟨rfl, (List.cons.inj (List.append_cancel_left heq)).2⟩

/-! ## Unbroken texts -/

/-- The characters of the text are looked at, not all characters. -/
instance (text : List Char) : Decidable (Unbroken text) :=
  List.decidableBAll _ text

theorem unbroken_iff {text : List Char} : Unbroken text ↔ '\n' ∉ text ∧ '\r' ∉ text := by
  constructor
  · exact fun h => ⟨fun hmem => absurd (h _ hmem) (by decide), fun hmem => absurd (h _ hmem) (by decide)⟩
  · rintro ⟨hfeed, hreturn⟩ c hmem
    refine Bool.eq_false_iff.mpr fun hbreak => ?_
    rcases isBreak_iff.mp hbreak with rfl | rfl
    · exact hfeed hmem
    · exact hreturn hmem

theorem Unbroken.append {text text' : List Char} (h : Unbroken text) (h' : Unbroken text') :
    Unbroken (text ++ text') :=
  List.forall_mem_append.mpr ⟨h, h'⟩

theorem unbroken_append {text text' : String} (h : Unbroken text.toList)
    (h' : Unbroken text'.toList) : Unbroken (text ++ text').toList := by
  rw [String.toList_append]
  exact h.append h'

theorem unbroken_replicate {c : Char} (h : isBreak c = false) (count : Nat) :
    Unbroken (List.replicate count c) := by
  intro d hmem
  rw [List.eq_of_mem_replicate hmem, h]

theorem unbroken_toDigits (number : Nat) : Unbroken (Nat.toDigits 10 number) :=
  unbroken_iff.mpr ⟨not_mem_toDigits (by decide) number, not_mem_toDigits (by decide) number⟩

theorem unbroken_toString (number : Nat) : Unbroken (toString number).toList := by
  show Unbroken number.repr.toList
  rw [Nat.toList_repr]
  exact unbroken_toDigits number

/-! ## Reading lines back -/

/-- Lines with a line feed between any two of them. -/
theorem splitOn_separated {lines : List (List Char)} (h : ∀ line ∈ lines, Unbroken line)
    (hsome : lines ≠ []) : (['\n'].intercalate lines).splitOn '\n' = lines := by
  exact List.splitOn_intercalate '\n' (fun line hmem => (unbroken_iff.mp (h line hmem)).1) hsome

/-- Lines that each end with a line feed. -/
theorem splitOn_terminated {lines : List (List Char)} (h : ∀ line ∈ lines, Unbroken line) :
    (lines.flatMap (· ++ ['\n'])).splitOn '\n' = lines ++ [[]] := by
  have hjoin : lines.flatMap (· ++ ['\n']) = ['\n'].intercalate (lines ++ [[]]) := by
    induction lines with
    | nil => rfl
    | cons line rest ih =>
      rw [List.flatMap_cons, ih fun line hmem => h line (List.mem_cons_of_mem _ hmem)]
      cases rest <;> simp [List.intercalate]
  have hlines : ∀ line ∈ lines ++ [[]], Unbroken line :=
    List.forall_mem_append.mpr ⟨h, List.forall_mem_singleton.mpr (List.forall_mem_nil _)⟩
  rw [hjoin, splitOn_separated hlines (by simp)]

end MlFront
