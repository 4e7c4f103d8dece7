import MlFront.Proofs.Token.Scan

/-!
# Maximal munch

Two parts of the library say which texts are tokens: `LexClass` by classes that are
tried in order, and `Kind.ofText` by tables and shapes. `munch` cuts a text by the
second one alone: at each position it takes the longest prefix that has a kind, and
skips a character when there is none. `tokenReach_eq_longest` says that the classes
take the same prefix, so the lexer is `munch` whatever the characters of words are,
and it would be without keywords.
-/

namespace MlFront

/-- The length of the longest prefix that has a kind, of those with at most
`bound` characters; 0 when none of them has one. -/
def longestWithin (text : List Char) : (bound : Nat) → Nat
  | 0 => 0
  | bound + 1 =>
    if Kind.ofText (String.ofList (text.take (bound + 1))) = .unrecognised then
      longestWithin text bound
    else bound + 1

/-- The length of the longest prefix of the text that has a kind; 0 when none has one. -/
def longest (text : List Char) : Nat :=
  longestWithin text text.length

/-- The texts of the longest tokens, one behind the other. -/
def munch : List Char → List String
  | [] => []
  | c :: rest =>
    match longest (c :: rest) with
    | 0 => munch rest
    | more + 1 => String.ofList (c :: rest.take more) :: munch (rest.drop more)
  termination_by text => text.length
  decreasing_by all_goals simp; try omega

theorem munch_skip {c : Char} {rest : List Char} (h : longest (c :: rest) = 0) :
    munch (c :: rest) = munch rest := by
  rw [munch, h]

theorem munch_take {c : Char} {rest : List Char} (h : longest (c :: rest) ≠ 0) :
    munch (c :: rest) =
      String.ofList ((c :: rest).take (longest (c :: rest))) ::
        munch ((c :: rest).drop (longest (c :: rest))) := by
  obtain ⟨more, hmore⟩ := Nat.exists_eq_succ_of_ne_zero h
  rw [munch, hmore]
  rfl

/-- The longest prefix within a bound is one that has a kind and no longer one has. -/
theorem longestWithin_eq {text : List Char} {reach bound : Nat} (hle : reach ≤ bound)
    (hkind : reach ≠ 0 → Kind.ofText (String.ofList (text.take reach)) ≠ .unrecognised)
    (hlonger : ∀ n ≤ bound, Kind.ofText (String.ofList (text.take n)) ≠ .unrecognised → n ≤ reach) :
    longestWithin text bound = reach := by
  induction bound with
  | zero => exact (Nat.le_zero.mp hle).symm
  | succ bound ih =>
    rw [longestWithin]
    split
    · next hnone =>
      have hne : reach ≠ bound + 1 := by
        rintro rfl
        exact hkind (Nat.succ_ne_zero bound) hnone
      exact ih (by omega) fun n hn => hlonger n (Nat.le_succ_of_le hn)
    · next hsome => exact Nat.le_antisymm (hlonger _ (Nat.le_refl _) hsome) hle

/-! ## Prefixes that have a kind -/

section Reach

variable {chars text : List Char}

/-- Of the spellings that a text starts with, the first one in the table is the
longest, when none stands behind one that it starts with. -/
theorem le_reachOfSpelling {table : List (List Char)}
    (horder : table.Pairwise fun s t => ¬ s <+: t) (hmem : chars ∈ table) (h : chars <+: text) :
    chars.length ≤ reachOfSpelling (fun _ _ => true) table text := by
  have hpass : ∀ s, s <+: text ↔ (s.isPrefixOf text && true) = true := by simp
  unfold reachOfSpelling
  split
  · next s hfind =>
    obtain ⟨hs, front, back, rfl, hfront⟩ := List.find?_eq_some_iff_append.mp hfind
    rcases List.mem_append.mp hmem with hmem | hmem
    · have hskipped := hfront chars hmem
      rw [(hpass chars).mp h] at hskipped
      cases hskipped
    · rcases List.mem_cons.mp hmem with rfl | hmem
      · exact Nat.le_refl _
      · have hnot := List.rel_of_pairwise_cons (List.pairwise_append.mp horder).2.1 hmem
        rcases List.prefix_or_prefix_of_prefix ((hpass s).mpr hs) h with hle | hle
        · exact absurd hle hnot
        · exact hle.length_le
  · next hfind =>
    have := List.find?_eq_none.mp hfind chars hmem
    exact absurd ((hpass chars).mp h) this

theorem le_reachIdentifier (hname : isNameShaped chars = true) (h : chars <+: text) :
    chars.length ≤ LexClass.reachIdentifier text := by
  obtain ⟨rest, rfl⟩ := h
  cases chars with
  | nil => cases hname
  | cons c more =>
    simp only [isNameShaped, Bool.and_eq_true, List.all_eq_true] at hname
    simp [LexClass.reachIdentifier, hname.1, List.takeWhile_append_of_pos hname.2]
    omega

/-- A number is digits, or digits with a point between them. -/
theorem isNumberShaped_iff :
    isNumberShaped chars = true ↔
      (chars ≠ [] ∧ ∀ c ∈ chars, isDigit c = true) ∨
        ∃ whole fraction, chars = whole ++ '.' :: fraction ∧ whole ≠ [] ∧ fraction ≠ [] ∧
          (∀ c ∈ whole, isDigit c = true) ∧ ∀ c ∈ fraction, isDigit c = true := by
  constructor
  · intro h
    have hsplit := List.takeWhile_append_dropWhile (p := isDigit) (l := chars)
    unfold isNumberShaped at h
    split at h
    · simp only [isDigits, Bool.and_eq_true, Bool.not_eq_true', List.isEmpty_eq_false_iff,
        List.all_eq_true] at h
      exact .inl h
    · next c fraction hrest =>
      simp only [isDigits, Bool.and_eq_true, Bool.not_eq_true', List.isEmpty_eq_false_iff,
        List.all_eq_true, beq_iff_eq] at h
      obtain ⟨⟨rfl, hwhole⟩, hfraction⟩ := h
      rw [hrest] at hsplit
      exact .inr ⟨_, fraction, hsplit.symm, hwhole.1, hfraction.1, hwhole.2, hfraction.2⟩
  · have hpoint : isDigit '.' = false := by decide
    rintro (⟨hsome, hdigits⟩ | ⟨whole, fraction, rfl, hwhole, hsome, hw, hf⟩)
    · unfold isNumberShaped
      rw [List.dropWhile_eq_nil_iff.mpr hdigits]
      simpa [isDigits] using ⟨hsome, hdigits⟩
    · have hdrop : (whole ++ '.' :: fraction).dropWhile isDigit = '.' :: fraction := by
        simp [List.dropWhile_append_of_pos hw, hpoint]
      have htake : (whole ++ '.' :: fraction).takeWhile isDigit = whole := by
        simp [List.takeWhile_append_of_pos hw, hpoint]
      unfold isNumberShaped
      rw [hdrop, htake]
      simpa [isDigits] using ⟨⟨hwhole, hw⟩, hsome, hf⟩

theorem le_reachNumber (hnumber : isNumberShaped chars = true) (h : chars <+: text) :
    chars.length ≤ LexClass.reachNumber text := by
  obtain ⟨rest, rfl⟩ := h
  unfold LexClass.reachNumber
  rcases isNumberShaped_iff.mp hnumber with
    ⟨-, hdigits⟩ | ⟨whole, fraction, rfl, hwhole, hsome, hw, hf⟩
  · have hle : chars.length ≤ ((chars ++ rest).takeWhile isDigit).length := by
      rw [List.takeWhile_append_of_pos hdigits, List.length_append]
      omega
    split
    · dsimp only
      split <;> omega
    · exact hle
  · have hpoint : isDigit '.' = false := by decide
    have htake : (whole ++ '.' :: fraction ++ rest).takeWhile isDigit = whole := by
      simp [List.takeWhile_append_of_pos hw, hpoint]
    have hdrop : (whole ++ '.' :: fraction ++ rest).dropWhile isDigit =
        '.' :: (fraction ++ rest) := by
      simp [List.dropWhile_append_of_pos hw, hpoint]
    simp only [htake, hdrop, List.takeWhile_append_of_pos hf, List.length_append, List.length_cons]
    rw [if_neg (by simp [hwhole, hsome])]
    omega

/-! ## What a class takes has a kind -/

theorem take_reachOfSpelling_mem {table : List (List Char)}
    (h : reachOfSpelling (fun _ _ => true) table text ≠ 0) :
    text.take (reachOfSpelling (fun _ _ => true) table text) ∈ table := by
  unfold reachOfSpelling at h ⊢
  split at h
  · next s hfind =>
    have hprefix : s <+: text := by simpa using List.find?_some hfind
    simpa [hfind, ← List.prefix_iff_eq_take.mp hprefix] using List.mem_of_find?_eq_some hfind
  · exact absurd rfl h

theorem take_length_takeWhile (p : Char → Bool) (text : List Char) :
    text.take (text.takeWhile p).length = text.takeWhile p :=
  (List.prefix_iff_eq_take.mp (List.takeWhile_prefix p)).symm

theorem isNameShaped_take_reachIdentifier (h : LexClass.reachIdentifier text ≠ 0) :
    isNameShaped (text.take (LexClass.reachIdentifier text)) = true := by
  cases text with
  | nil => exact absurd rfl h
  | cons c rest =>
    simp only [LexClass.reachIdentifier] at h ⊢
    split at h
    · next hstart =>
      rw [if_pos hstart, Nat.add_comm, List.take_succ_cons, take_length_takeWhile]
      simp [isNameShaped, hstart]
    · exact absurd rfl h

theorem isNumberShaped_take_reachNumber (h : LexClass.reachNumber text ≠ 0) :
    isNumberShaped (text.take (LexClass.reachNumber text)) = true := by
  have hdigits : ∀ chars : List Char, ∀ c ∈ chars.takeWhile isDigit, isDigit c = true :=
    fun _ _ => List.mem_takeWhile_imp
  have hwhole : (text.takeWhile isDigit).length ≠ 0 →
      isNumberShaped (text.take (text.takeWhile isDigit).length) = true := by
    intro hsome
    rw [take_length_takeWhile]
    exact isNumberShaped_iff.mpr (.inl ⟨by simpa using hsome, hdigits text⟩)
  have hsplit := List.takeWhile_append_dropWhile (p := isDigit) (l := text)
  simp only [LexClass.reachNumber] at h ⊢
  split at h
  · next rest hrest =>
    split at h
    · next hnone => rw [if_pos hnone]; exact hwhole h
    · next hsome =>
      rw [if_neg hsome]
      simp only [Bool.or_eq_true, decide_eq_true_eq, not_or, List.length_eq_zero_iff] at hsome
      have htake : ∀ whole, whole ++ '.' :: rest = text →
          text.take (whole.length + 1 + (rest.takeWhile isDigit).length) =
            whole ++ '.' :: rest.takeWhile isDigit := by
        rintro whole rfl
        rw [Nat.add_assoc, List.take_length_add_append, Nat.add_comm 1, List.take_succ_cons,
          take_length_takeWhile]
      rw [htake _ (by rwa [hrest] at hsplit)]
      exact isNumberShaped_iff.mpr
        (.inr ⟨_, _, rfl, hsome.1, hsome.2, hdigits text, hdigits rest⟩)
  · exact hwhole h

end Reach

/-! ## Classes and kinds -/

/-- A text has a kind just when it is of one of the classes that make tokens. -/
theorem hasKind_iff {chars : List Char} :
    Kind.ofText (String.ofList chars) ≠ .unrecognised ↔
      chars ∈ operatorSpellings ∨ isNameShaped chars = true ∨ isNumberShaped chars = true ∨
        chars ∈ punctuationSpellings := by
  have hwords : ∀ entry ∈ Kind.reserved, isNameShaped entry.1.toList = true := by decide
  have hmem : ∀ table : List (String × Kind),
      String.ofList chars ∈ table.map Prod.fst ↔ chars ∈ spellings table := by
    intro table
    simp only [spellings, List.mem_map, String.ext_iff, String.toList_ofList]
  have hreserved : String.ofList chars ∈ Kind.reserved.map Prod.fst → isNameShaped chars = true := by
    intro h
    obtain ⟨entry, hentry, heq⟩ := List.mem_map.mp h
    rw [← String.toList_ofList (l := chars), ← heq]
    exact hwords entry hentry
  rw [Kind.ofText_ne_unrecognised_iff, Kind.spelled, List.map_append, List.map_append,
    List.mem_append, List.mem_append, hmem Kind.operators, hmem Kind.punctuation,
    String.toList_ofList, operatorSpellings, punctuationSpellings]
  grind

/-- The first class that takes something says how long the token is. -/
theorem tokenReach_of_first {text : List Char} {k : LexClass} {front back : List LexClass}
    (hclasses : tokenClasses = front ++ k :: back)
    (hfront : ∀ j ∈ front, j.reach isNamePart none text = 0)
    (hk : k.reach isNamePart none text ≠ 0) : tokenReach text = k.reach isNamePart none text := by
  have hfind : tokenClasses.find? (fun j => j.reach isNamePart none text != 0) = some k :=
    List.find?_eq_some_iff_append.mpr
      ⟨by simpa using hk, front, back, hclasses, by simpa using hfront⟩
  rw [tokenReach, hfind, Option.elim_some]

theorem exists_class_of_tokenReach {text : List Char} (h : tokenReach text ≠ 0) :
    ∃ k ∈ tokenClasses, tokenReach text = k.reach isNamePart none text := by
  rw [tokenReach] at h ⊢
  cases hfind : tokenClasses.find? fun k => k.reach isNamePart none text != 0 with
  | none =>
    rw [hfind] at h
    exact absurd rfl h
  | some k => exact ⟨k, List.mem_of_find?_eq_some hfind, rfl⟩

/-- What the classes take from the front of a text has a kind. -/
theorem hasKind_tokenReach {text : List Char} (h : tokenReach text ≠ 0) :
    Kind.ofText (String.ofList (text.take (tokenReach text))) ≠ .unrecognised := by
  obtain ⟨k, hk, hreach⟩ := exists_class_of_tokenReach h
  rw [hreach] at h ⊢
  rw [hasKind_iff]
  simp only [tokenClasses, List.mem_cons, List.not_mem_nil, or_false] at hk
  rcases hk with rfl | rfl | rfl | rfl
  · exact .inl (take_reachOfSpelling_mem h)
  · exact .inr (.inl (isNameShaped_take_reachIdentifier h))
  · exact .inr (.inr (.inl (isNumberShaped_take_reachNumber h)))
  · exact .inr (.inr (.inr (take_reachOfSpelling_mem h)))

theorem reachIdentifier_eq_zero {c : Char} {rest : List Char} (h : isNameStart c = false) :
    LexClass.reachIdentifier (c :: rest) = 0 := by
  simp [LexClass.reachIdentifier, h]

theorem reachNumber_eq_zero {c : Char} {rest : List Char} (h : isDigit c = false) :
    LexClass.reachNumber (c :: rest) = 0 := by
  unfold LexClass.reachNumber
  rw [List.takeWhile_cons_of_neg (by simp [h])]
  split <;> rfl

/-- A prefix that has a kind is no longer than what the classes take. The classes
before its own take nothing, as its first character starts none of their texts. -/
theorem le_tokenReach {chars text : List Char} (h : chars <+: text)
    (hkind : Kind.ofText (String.ofList chars) ≠ .unrecognised) :
    chars.length ≤ tokenReach text := by
  cases chars with
  | nil => exact Nat.zero_le _
  | cons c more =>
    have hlonger : ∀ (front : List LexClass) {k : LexClass} {back : List LexClass},
        tokenClasses = front ++ k :: back →
        (∀ j ∈ front, j.reach isNamePart none text = 0) →
        (c :: more).length ≤ k.reach isNamePart none text →
        (c :: more).length ≤ tokenReach text := by
      intro front k back hclasses hfront hle
      have hsome : k.reach isNamePart none text ≠ 0 := by
        rw [List.length_cons] at hle
        omega
      rw [tokenReach_of_first hclasses hfront hsome]
      exact hle
    have hoperator : ∀ p : Char → Bool, (∀ s ∈ operatorSpellings, s.head?.any p = false ∧ s ≠ []) →
        p c = true → LexClass.operator.reach isNamePart none text = 0 := by
      obtain ⟨rest, rfl⟩ := h
      exact fun p hp hc => reachOfSpelling_eq_zero hp hc
    have hidentifier : isNameStart c = false →
        LexClass.identifier.reach isNamePart none text = 0 := by
      obtain ⟨rest, rfl⟩ := h
      exact reachIdentifier_eq_zero
    have hnumber : isDigit c = false → LexClass.number.reach isNamePart none text = 0 := by
      obtain ⟨rest, rfl⟩ := h
      exact reachNumber_eq_zero
    rcases hasKind_iff.mp hkind with hmem | hname | hdigits | hmem
    · exact hlonger [] rfl (by simp) (le_reachOfSpelling (by decide) hmem h)
    · have hc : isNameStart c = true := by
        simp only [isNameShaped, Bool.and_eq_true] at hname
        exact hname.1
      refine hlonger [.operator] rfl ?_ (le_reachIdentifier hname h)
      simpa using hoperator isNameStart (by decide) hc
    · have hc := isDigit_of_isNumberShaped hdigits
      have hstart : isNameStart c = false :=
        Bool.eq_false_iff.mpr fun hstart => by simp [not_isDigit_of_isNameStart hstart] at hc
      refine hlonger [.operator, .identifier] rfl ?_ (le_reachNumber hdigits h)
      simpa using ⟨hoperator isDigit (by decide) hc, hidentifier hstart⟩
    · have hmarks : ∀ s ∈ punctuationSpellings,
          s.head?.all fun c => !isNameStart c && !isDigit c := by decide
      have hc := hmarks _ hmem
      simp only [List.head?_cons, Option.all_some, Bool.and_eq_true, Bool.not_eq_true'] at hc
      have hstart := hoperator (fun c => punctuationSpellings.any (·.head? == some c)) (by decide)
        (List.any_eq_true.mpr ⟨_, hmem, by simp⟩)
      refine hlonger [.operator, .identifier, .number] rfl ?_
        (le_reachOfSpelling (by decide) hmem h)
      simpa using ⟨hstart, hidentifier hc.1, hnumber hc.2⟩

/-- The classes, tried in order, take the longest prefix that has a kind. -/
theorem tokenReach_eq_longest (text : List Char) : tokenReach text = longest text := by
  refine (longestWithin_eq (tokenReach_le text) hasKind_tokenReach fun n hn hkind => ?_).symm
  have hle := le_tokenReach (List.take_prefix n text) hkind
  rwa [List.length_take, Nat.min_eq_left hn] at hle

/-! ## The lexer -/

/-- The scanner takes the longest tokens. -/
theorem scan_texts (line : Nat) (text : List Char) :
    (scan line text).map (·.text) = munch text := by
  induction text using scan_induction generalizing line with
  | nil => simp [munch]
  | blank c rest hc ih =>
    have hnone : longest (c :: rest) = 0 := by
      rw [← tokenReach_eq_longest]
      exact tokenReach_append [] rest hc
    rw [scan_blank hc, munch_skip hnone]
    exact ih _
  | skip c rest hc hreach ih =>
    rw [scan_skip hc hreach, munch_skip (tokenReach_eq_longest _ ▸ hreach)]
    exact ih _
  | token c rest hc hreach ih =>
    rw [scan_token hc hreach, munch_take (tokenReach_eq_longest _ ▸ hreach), List.map_cons, ih,
      tokenReach_eq_longest]

/-- Whatever characters outside of identifiers count as parts of words, the lexer
takes the longest tokens, and takes the same ones on the same lines as without the
class of keywords. -/
theorem tokenizeCode_eq_munch (word : Char → Bool)
    (hword : ∀ c, isNamePart c = true → word c = true) (source : String) :
    (tokenizeCode word (stripComments source.toList)).map (·.text) =
        munch (stripComments source.toList) ∧
      tokenizeCode word (stripComments source.toList) = scan 1 (stripComments source.toList) ∧
      tokenizeCode word (stripComments source.toList) = tokenize source := by
  have hscan := tokenizeCode_eq_scan hword (stripComments source.toList)
  refine ⟨?_, hscan, ?_⟩
  · rw [hscan]
    exact scan_texts 1 _
  · rw [hscan]
    exact (tokenizeCode_eq_scan (fun _ h => h) _).symm

/-- Here `é` is a part of words, so that the `let` behind it is no keyword. -/
theorem tokenizeCode_eq_munch_accent :
    (∀ c, isNamePart c = true → (isNamePart c || c == 'é') = true) ∧
      (tokenizeCode (fun c => isNamePart c || c == 'é')
        (stripComments "élet 1.2.3===".toList)).map (·.text) =
          ["let", "1.2", "3", "==", "="] := by
  have hword : ∀ c, isNamePart c = true → (isNamePart c || c == 'é') = true :=
    fun c h => by rw [h, Bool.true_or]
  exact ⟨hword, (tokenizeCode_eq_munch _ hword _).1.trans (by decide +kernel)⟩

end MlFront
