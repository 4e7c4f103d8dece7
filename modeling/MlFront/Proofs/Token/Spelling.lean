import MlFront.Parser.OpenForm

/-!
# Which texts have which kind

Every kind but `number`, `identifier` and `unrecognised` has one spelling, and
`Kind.spelled` lists them. A text is of a class of such kinds just when it is
among the spellings of the class (`Kind.ofText_mem_iff`); identifiers and numbers
are the texts of that shape that are no spelling. Everything the parser asks
about the kind of a token is said here of its text.
-/

namespace MlFront

/-! ## Shapes -/

theorem isDigit_toNat {c : Char} (h : isDigit c = true) :
    (0x30 ≤ c.toNat ∧ c.toNat ≤ 0x39) ∨ 0x660 ≤ c.toNat := by
  obtain ⟨range, hmem, hlo, hhi⟩ := CharRange.cover_iff.mp h
  have htable : ∀ r ∈ digitRanges, r = ⟨0x30, 0x39⟩ ∨ 0x660 ≤ r.first := by decide
  rcases htable range hmem with rfl | hbig
  · exact .inl ⟨hlo, hhi⟩
  · exact .inr (Nat.le_trans hbig hlo)

theorem isNameStart_toNat {c : Char} (h : isNameStart c = true) :
    (0x41 ≤ c.toNat ∧ c.toNat ≤ 0x5A) ∨ c.toNat = 0x5F ∨ (0x61 ≤ c.toNat ∧ c.toNat ≤ 0x7A) := by
  change ((decide (c.val ≥ 'A'.val ∧ c.val ≤ 'Z'.val) ||
    decide (c.val ≥ 'a'.val) && decide (c.val ≤ 'z'.val)) || c == '_') = true at h
  simp only [Bool.or_eq_true, Bool.and_eq_true, decide_eq_true_eq, beq_iff_eq, ge_iff_le,
    UInt32.le_iff_toNat_le] at h
  rcases h with (h | h) | rfl
  · exact .inl h
  · exact .inr (.inr h)
  · exact .inr (.inl rfl)

theorem not_isDigit_of_isNameStart {c : Char} (h : isNameStart c = true) : isDigit c = false := by
  have := isNameStart_toNat h
  refine Bool.eq_false_iff.mpr fun hd => ?_
  have := isDigit_toNat hd
  omega

theorem isDigit_of_isNumberShaped {c : Char} {rest : List Char}
    (h : isNumberShaped (c :: rest) = true) : isDigit c = true := by
  refine Decidable.byContradiction fun hc => ?_
  simp [isNumberShaped, hc, isDigits] at h

theorem not_isNumberShaped_of_isNameShaped {chars : List Char} (h : isNameShaped chars = true) :
    isNumberShaped chars = false := by
  refine Bool.eq_false_iff.mpr fun hn => ?_
  cases chars with
  | nil => cases h
  | cons c rest =>
    have hstart : isNameStart c = true := by
      simp only [isNameShaped, Bool.and_eq_true] at h
      exact h.1
    have hd := isDigit_of_isNumberShaped hn
    rw [not_isDigit_of_isNameStart hstart] at hd
    cases hd

namespace Kind

/-! ## Spellings -/

/-- The kinds with a spelling of their own, each with its spelling. -/
def spelled : List (String × Kind) :=
  reserved ++ operators ++ punctuation

theorem ofText_of_mem_spelled {text : String} {kind : Kind} (h : (text, kind) ∈ spelled) :
    ofText text = kind := by
  have hall : ∀ entry ∈ spelled, ofText entry.1 = entry.2 := by decide
  exact hall _ h

theorem mem_of_lookup {table : List (String × Kind)} {text : String} {kind : Kind}
    (h : table.lookup text = some kind) : (text, kind) ∈ table := by
  obtain ⟨front, back, rfl, -⟩ := List.lookup_eq_some_iff.mp h
  simp

/-- Where the kind of a text comes from. -/
theorem ofText_cases (text : String) :
    (text, ofText text) ∈ spelled ∨ (ofText text = identifier ∧ isNameShaped text.toList = true) ∨
      (ofText text = number ∧ isNumberShaped text.toList = true) ∨
      (ofText text = unrecognised ∧ isNameShaped text.toList = false ∧
        isNumberShaped text.toList = false) := by
  unfold ofText
  split
  · next kind h => exact .inl (by simp [spelled, mem_of_lookup h])
  · split
    · next kind h => exact .inl (by simp [spelled, mem_of_lookup h])
    · split
      · next h => exact .inr (.inl ⟨rfl, h⟩)
      · next hname =>
        split
        · next h => exact .inr (.inr (.inl ⟨rfl, h⟩))
        · next hnumber =>
          cases h : punctuation.lookup text with
          | none => exact .inr (.inr (.inr ⟨rfl, by simpa using hname, by simpa using hnumber⟩))
          | some kind => exact .inl (by simp [spelled, mem_of_lookup h])

/-- A text is of a class of spelled kinds just when it is one of their spellings. -/
theorem ofText_mem_iff (which : Kind → Bool)
    (hwhich : which number = false ∧ which identifier = false ∧ which unrecognised = false)
    (text : String) :
    which (ofText text) = true ↔ text ∈ (spelled.filter fun entry => which entry.2).map Prod.fst := by
  constructor
  · intro h
    rcases ofText_cases text with hs | ⟨hk, -⟩ | ⟨hk, -⟩ | ⟨hk, -⟩
    · exact List.mem_map.mpr ⟨_, List.mem_filter.mpr ⟨hs, h⟩, rfl⟩
    all_goals simp [hk, hwhich] at h
  · intro h
    obtain ⟨⟨_, kind⟩, hmem, rfl⟩ := List.mem_map.mp h
    obtain ⟨hs, hk⟩ := List.mem_filter.mp hmem
    rw [ofText_of_mem_spelled hs]
    exact hk

theorem ofText_ne_unrecognised_iff {text : String} :
    ofText text ≠ unrecognised ↔ text ∈ spelled.map Prod.fst ∨ isNameShaped text.toList = true ∨
      isNumberShaped text.toList = true := by
  constructor
  · intro h
    rcases ofText_cases text with hs | ⟨-, hname⟩ | ⟨-, hnumber⟩ | ⟨hk, -⟩
    · exact .inl (List.mem_map_of_mem (f := Prod.fst) hs)
    · exact .inr (.inl hname)
    · exact .inr (.inr hnumber)
    · exact absurd hk h
  · have hkinds : ∀ entry ∈ spelled, entry.2 ≠ unrecognised := by decide
    rintro (h | h | h) hnone
    · obtain ⟨entry, hmem, rfl⟩ := List.mem_map.mp h
      exact hkinds entry hmem ((ofText_of_mem_spelled hmem).symm.trans hnone)
    all_goals
      rcases ofText_cases text with hs | ⟨hk, -⟩ | ⟨hk, -⟩ | ⟨-, hname, hnumber⟩
      · exact hkinds _ hs hnone
      · rw [hk] at hnone; cases hnone
      · rw [hk] at hnone; cases hnone
      · simp [hname, hnumber] at h

theorem ofText_eq_number_iff {text : String} :
    ofText text = number ↔ isNumberShaped text.toList = true := by
  constructor
  · intro h
    rcases ofText_cases text with hs | ⟨hk, -⟩ | ⟨-, hn⟩ | ⟨hk, -⟩
    · rw [h] at hs
      simp [spelled, reserved, operators, punctuation] at hs
    · rw [h] at hk; cases hk
    · exact hn
    · rw [h] at hk; cases hk
  · intro hn
    have hspelled : ∀ entry ∈ reserved ++ operators, isNumberShaped entry.1.toList = false := by
      decide
    unfold ofText
    split
    · next h => simp [hspelled _ (List.mem_append_left _ (mem_of_lookup h))] at hn
    · split
      · next h => simp [hspelled _ (List.mem_append_right _ (mem_of_lookup h))] at hn
      · split
        · next h => simp [not_isNumberShaped_of_isNameShaped h] at hn
        · rfl

end Kind

namespace Token

/-! ## Tokens -/

theorem isTerminator_iff {token : Token} :
    token.isTerminator = true ↔ token.text ∈ [")", ";", "in", "then", "else"] := by
  refine (Kind.ofText_mem_iff Kind.isTerminator (by decide) token.text).trans ?_
  simp [Kind.spelled, Kind.reserved, Kind.operators, Kind.punctuation, Kind.isTerminator]
  grind

theorem isBinaryOperator_iff {token : Token} :
    token.isBinaryOperator = true ↔
      token.text ∈ ["==", "!=", "<", ">", "<=", ">=", "+", "-", "*", "/"] := by
  refine (Kind.ofText_mem_iff Kind.isBinaryOperator (by decide) token.text).trans ?_
  simp [Kind.spelled, Kind.reserved, Kind.operators, Kind.punctuation, Kind.isBinaryOperator]
  grind

theorem kind_eq_iff {token : Token} {kind : Kind}
    (h : kind ≠ .number ∧ kind ≠ .identifier ∧ kind ≠ .unrecognised) :
    token.kind = kind ↔ (token.text, kind) ∈ Kind.spelled := by
  constructor
  · rintro rfl
    rcases Kind.ofText_cases token.text with hs | ⟨hk, -⟩ | ⟨hk, -⟩ | ⟨hk, -⟩
    · exact hs
    · exact absurd hk h.2.1
    · exact absurd hk h.1
    · exact absurd hk h.2.2
  · exact Kind.ofText_of_mem_spelled

theorem kind_eq_number_iff {token : Token} :
    token.kind = .number ↔ isNumberShaped token.text.toList = true :=
  Kind.ofText_eq_number_iff

theorem kind_eq_openParen_iff {token : Token} : token.kind = .openParen ↔ token.text = "(" := by
  rw [kind_eq_iff (by decide)]
  simp [Kind.spelled, Kind.reserved, Kind.operators, Kind.punctuation]

theorem kind_eq_arrow_iff {token : Token} : token.kind = .arrow ↔ token.text = "->" := by
  rw [kind_eq_iff (by decide)]
  simp [Kind.spelled, Kind.reserved, Kind.operators, Kind.punctuation]

theorem kind_eq_boolean_iff {token : Token} :
    token.kind = .kwTrue ∨ token.kind = .kwFalse ↔ token.text ∈ ["true", "false"] := by
  rw [kind_eq_iff (by decide), kind_eq_iff (by decide)]
  simp [Kind.spelled, Kind.reserved, Kind.operators, Kind.punctuation]

theorem isParameter_eq (token : Token) : token.isParameter = token.isNameShaped := by
  by_cases h : token.kind = .arrow
  · have hname : token.isNameShaped = false := by
      rw [isNameShaped, kind_eq_arrow_iff.mp h]
      decide
    rw [hname]
    simp [isParameter, h]
  · simp [isParameter, h]

end Token

end MlFront
