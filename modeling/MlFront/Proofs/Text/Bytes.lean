import Mathlib.Data.List.Basic
import MlFront.Text.Line

/-!
# Line breaks in bytes

`countBreakBytes` counts line breaks in the bytes of a text, looking one byte ahead. In
UTF-8 the bytes of `\n` and `\r` are in the code of no other character, so it is the
number of breaks in the characters.
-/

namespace MlFront

/-- Whether a line break ends at the byte, given the byte behind it. -/
def endsBreakByte (byte : UInt8) (next : Option UInt8) : Bool :=
  byte == 10 || (byte == 13 && next != some 10)

/-- The number of line breaks in a text, given by its bytes. -/
def countBreakBytes (bytes : List UInt8) : Nat :=
  bytes.zipIdx.countP fun (byte, i) => endsBreakByte byte bytes[i + 1]?

@[simp] theorem countBreakBytes_nil : countBreakBytes [] = 0 := rfl

theorem countBreakBytes_cons (byte : UInt8) (rest : List UInt8) :
    countBreakBytes (byte :: rest) =
      (if endsBreakByte byte rest.head? then 1 else 0) + countBreakBytes rest := by
  have hshift : rest.zipIdx 1 = rest.zipIdx.map fun (b, i) => (b, i + 1) := by
    rw [List.zipIdx_succ]
  rw [countBreakBytes, countBreakBytes, List.zipIdx_cons, List.countP_cons, hshift, List.countP_map,
    Nat.add_comm]
  simp [Function.comp_def, List.head?_eq_getElem?]

theorem countBreakBytes_append {high : List UInt8} (h : ∀ b ∈ high, 128 ≤ b.toNat)
    (rest : List UInt8) : countBreakBytes (high ++ rest) = countBreakBytes rest := by
  induction high with
  | nil => rfl
  | cons b high ih =>
    obtain ⟨hb, hhigh⟩ := List.forall_mem_cons.mp h
    have hnone : endsBreakByte b (high ++ rest).head? = false := by
      have hnewline : b ≠ 10 := by
        rintro rfl
        exact absurd hb (by decide)
      have hreturn : b ≠ 13 := by
        rintro rfl
        exact absurd hb (by decide)
      simp [endsBreakByte, hnewline, hreturn]
    rw [List.cons_append, countBreakBytes_cons, hnone, ih hhigh]
    simp

/-! ## Codes of characters -/

theorem utf8EncodeChar_ascii {c : Char} (h : c.toNat < 128) :
    String.utf8EncodeChar c = [UInt8.ofNat c.toNat] := by
  have hle : c.val.toNat ≤ 127 := Nat.le_of_lt_succ h
  rw [String.utf8EncodeChar, if_pos hle]
  rfl

/-- In the code of a character outside of ASCII are only bytes outside of ASCII. -/
theorem le_of_mem_utf8EncodeChar {c : Char} (h : 128 ≤ c.toNat) :
    ∀ b ∈ String.utf8EncodeChar c, 128 ≤ b.toNat := by
  have hlarge : ¬ c.val.toNat ≤ 127 := Nat.not_le.mpr h
  have hbyte : ∀ n, 128 ≤ n → n < 256 → 128 ≤ (UInt8.ofNat n).toNat := by
    intro n hlo hhi
    rwa [UInt8.toNat_ofNat', Nat.mod_eq_of_lt hhi]
  rw [String.utf8EncodeChar, if_neg hlarge]
  intro b hmem
  split at hmem
  · simp only [List.mem_cons, List.not_mem_nil, or_false] at hmem
    rcases hmem with rfl | rfl <;> exact hbyte _ (by omega) (by omega)
  · split at hmem
    · simp only [List.mem_cons, List.not_mem_nil, or_false] at hmem
      rcases hmem with rfl | rfl | rfl <;> exact hbyte _ (by omega) (by omega)
    · simp only [List.mem_cons, List.not_mem_nil, or_false] at hmem
      rcases hmem with rfl | rfl | rfl | rfl <;> exact hbyte _ (by omega) (by omega)

theorem ofNat_eq_iff {c d : Char} (hc : c.toNat < 128) (hd : d.toNat < 128) :
    UInt8.ofNat c.toNat = UInt8.ofNat d.toNat ↔ c = d := by
  rw [← UInt8.toNat_inj, UInt8.toNat_ofNat', UInt8.toNat_ofNat', Nat.mod_eq_of_lt (by omega),
    Nat.mod_eq_of_lt (by omega), Char.toNat_inj]

/-- A text starts with the byte of an ASCII character just when it starts with the character. -/
theorem head?_utf8_eq_iff {d : Char} (hd : d.toNat < 128) (text : List Char) :
    (text.flatMap String.utf8EncodeChar).head? = some (UInt8.ofNat d.toNat) ↔
      text.head? = some d := by
  cases text with
  | nil => simp
  | cons c rest =>
    rw [List.flatMap_cons, List.head?_cons, Option.some.injEq]
    by_cases hc : c.toNat < 128
    · rw [utf8EncodeChar_ascii hc, List.singleton_append, List.head?_cons, Option.some.injEq,
        ofNat_eq_iff hc hd]
    · refine iff_of_false (fun hhead => ?_) ?_
      · rw [List.head?_append_of_ne_nil _ String.utf8EncodeChar_ne_nil] at hhead
        have hle := le_of_mem_utf8EncodeChar (Nat.not_lt.mp hc) _ (List.mem_of_head? hhead)
        rw [UInt8.toNat_ofNat', Nat.mod_eq_of_lt (by omega)] at hle
        omega
      · rintro rfl
        exact hc hd

theorem endsBreakByte_eq {c : Char} (h : c.toNat < 128) (rest : List Char) :
    endsBreakByte (UInt8.ofNat c.toNat) (rest.flatMap String.utf8EncodeChar).head? =
      endsBreak c rest := by
  have hnewline := ofNat_eq_iff (d := '\n') h (by decide)
  have hreturn := ofNat_eq_iff (d := '\r') h (by decide)
  have hhead := head?_utf8_eq_iff (d := '\n') (by decide) rest
  rw [Bool.eq_iff_iff]
  simp only [endsBreakByte, endsBreak, Bool.or_eq_true, Bool.and_eq_true, beq_iff_eq, bne_iff_ne]
  exact or_congr hnewline (and_congr hreturn (not_congr hhead))

theorem countBreakBytes_flatMap (text : List Char) :
    countBreakBytes (text.flatMap String.utf8EncodeChar) = countBreaks text := by
  induction text with
  | nil => rfl
  | cons c rest ih =>
    rw [List.flatMap_cons, countBreaks_cons]
    by_cases hc : c.toNat < 128
    · rw [utf8EncodeChar_ascii hc, List.singleton_append, countBreakBytes_cons, endsBreakByte_eq hc,
        ih]
    · have hnone : endsBreak c rest = false := by
        have hnewline : c ≠ '\n' := by
          rintro rfl
          exact hc (by decide)
        have hreturn : c ≠ '\r' := by
          rintro rfl
          exact hc (by decide)
        simp [endsBreak, hnewline, hreturn]
      rw [countBreakBytes_append (le_of_mem_utf8EncodeChar (Nat.not_lt.mp hc)), ih, hnone]
      simp

/-- Line breaks can be counted on the bytes of a source. -/
theorem countBreakBytes_toUTF8 (source : String) :
    countBreakBytes source.toUTF8.data.toList = countBreaks source.toList := by
  rw [← countBreakBytes_flatMap, String.toUTF8, ← String.utf8Encode_toList]
  simp [List.utf8Encode]

end MlFront
