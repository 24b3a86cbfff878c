import Formula.Token.Lexer
import Mathlib.Data.List.ReduceOption

/-! # Tokens are read as they are spelled

A text is laid out as pieces: tokens, each spelled in one way, and blanks between them.  The lexer
finds in the text the tokens of the pieces, if every token is one that can be spelled and none runs
together with what stands right behind it.

Two tokens run together where the first goes on as long as letters, digits or points follow, or
where it is the first half of a longer sign.  So pieces are read as their tokens before certain
characters (`LexesBefore`), and rows of pieces are put together character by character.
-/
namespace Formula

/-! ## What a text is taken apart into -/

/-- Wherever the text stands, its pieces are the tokens. -/
def LexesTo (text : List Char) (tokens : List Token) : Prop :=
  ∀ offset, ∃ placed : List PlacedToken,
    placed.map (·.token) = tokens ∧ lexemesFrom 0 offset text = placed.map .token

theorem lexemesFrom_skip (front rest : List Char) (offset : Nat) :
    lexemesFrom front.length offset (front ++ rest)
      = lexemesFrom 0 (offset + byteLength front) rest := by
  induction front generalizing offset with
  | nil => rfl
  | cons c front ih =>
    rw [List.length_cons, List.cons_append, lexemesFrom, ih, byteLength_cons, Nat.add_assoc]

theorem lexesTo_nil : LexesTo [] [] := fun _ => ⟨[], rfl, rfl⟩

theorem lexemesFrom_gap {c : Char} (hc : Scan.isGap c = true) (rest : List Char) (offset : Nat) :
    lexemesFrom 0 offset (c :: rest)
      = lexemesFrom (rest.takeWhile Scan.isGap).length (offset + c.utf8Size) rest := by
  rw [lexemesFrom, Scan.scan, if_pos hc]
  simp only [Lexeme.ofReading?, Nat.add_sub_cancel_left]

/-- Behind the first character of a gap its other characters are a gap, or there are none. -/
theorem lexemesFrom_cons_gap {c : Char} (hc : Scan.isGap c = true) (rest : List Char)
    (offset : Nat) :
    lexemesFrom 0 offset (c :: rest) = lexemesFrom 0 (offset + c.utf8Size) rest := by
  rw [lexemesFrom_gap hc]
  cases rest with
  | nil => rfl
  | cons next rest =>
    by_cases hnext : Scan.isGap next = true
    · rw [lexemesFrom_gap hnext, List.takeWhile_cons_of_pos hnext, List.length_cons, lexemesFrom]
    · rw [List.takeWhile_cons_of_neg hnext]
      rfl

section
variable {rest : List Char} {ts : List Token}

/-- A token that the lexer finds at the beginning of a text is the first one of the text. -/
theorem LexesTo.cons {c : Char} {letters : List Char} {t : Token}
    (hscan : Scan.scan c (letters ++ rest) = ⟨.token t, 1 + letters.length⟩)
    (h : LexesTo rest ts) : LexesTo (c :: letters ++ rest) (t :: ts) := by
  intro offset
  obtain ⟨placed, hplaced, hrest⟩ := h (offset + c.utf8Size + byteLength letters)
  let stop := offset + byteLength ((c :: (letters ++ rest)).take (1 + letters.length))
  refine ⟨⟨t, offset, stop⟩ :: placed, congrArg (t :: ·) hplaced, ?_⟩
  rw [List.cons_append, lexemesFrom, hscan]
  simp only [Lexeme.ofReading?, Nat.add_sub_cancel_left, lexemesFrom_skip, hrest]
  rfl

/-- A gap makes no difference to what stands behind it. -/
theorem LexesTo.gap {c : Char} (hc : Scan.isGap c = true) (h : LexesTo rest ts) :
    LexesTo (c :: rest) ts := by
  intro offset
  rw [lexemesFrom_cons_gap hc]
  exact h _

end

/-! ## Letters and digits -/

/-- What is taken off a text ends where something else follows. -/
theorem takeWhile_append_of_head {p : Char → Bool} {rest : List Char}
    (h : ∀ c ∈ rest.head?, p c = false) (front : List Char) :
    (front ++ rest).takeWhile p = front.takeWhile p := by
  induction front with
  | nil =>
    cases rest with
    | nil => rfl
    | cons c rest => exact List.takeWhile_cons_of_neg (by simp [h c rfl])
  | cons c front ih => rw [List.cons_append, List.takeWhile_cons, List.takeWhile_cons, ih]

namespace Scan
section
variable {c : Char} {rest : List Char}

theorem code_of_isDigit (h : isDigit c = true) : 48 ≤ c.toNat ∧ c.toNat ≤ 57 := by
  -- letters are worth ten and more
  have hletter : ∀ n : Nat, ¬ ((some (n + 10)).filter fun value => value < 10).isSome = true := by
    simp
  unfold isDigit Number.isDigit Number.digitValue? at h
  split at h
  · rename_i hrange
    exact hrange
  · split at h
    · exact absurd h (hletter _)
    · split at h
      · exact absurd h (hletter _)
      · cases h

theorem isDigit_of_isDigit (h : c.isDigit = true) : isDigit c = true := by
  obtain ⟨hlow, hhigh⟩ : '0' ≤ c ∧ c ≤ '9' := by simpa [Char.isDigit, Char.le_def] using h
  have hcode : c.toNat ≤ 57 := hhigh
  have hten : c.toNat - 48 < 10 := by omega
  simp [isDigit, Number.isDigit, Number.digitValue?, hlow, hhigh, hten]

theorem code_of_isNameStart (h : isNameStart c = true) : 65 ≤ c.toNat ∧ c.toNat ≤ 122 := by
  have hletter : (c.isUpper || c.isLower || decide (c = '_')) = true := h
  rw [Bool.or_eq_true, Bool.or_eq_true, decide_eq_true_eq] at hletter
  rcases hletter with (hupper | hlower) | rfl
  · obtain ⟨hlow, hhigh⟩ : 'A'.val ≤ c.val ∧ c.val ≤ 'Z'.val := of_decide_eq_true hupper
    exact ⟨hlow, Nat.le_trans hhigh (by decide)⟩
  · obtain ⟨hlow, hhigh⟩ : decide ('a'.val ≤ c.val) = true ∧ decide (c.val ≤ 'z'.val) = true :=
      Bool.and_eq_true_iff.mp hlower
    exact ⟨Nat.le_trans (by decide) (of_decide_eq_true hlow), of_decide_eq_true hhigh⟩
  · decide

theorem code_of_isGap (h : isGap c = true) : c.toNat ≤ 32 := by
  simp only [isGap, Bool.or_eq_true, decide_eq_true_eq] at h
  rcases h with (((rfl | rfl) | rfl) | rfl) | rfl <;> decide

/-- A character is none whose code differs. -/
theorem ne_of_code {d : Char} (h : c.toNat ≠ d.toNat) : c ≠ d := fun e => h (congrArg Char.toNat e)

theorem scan_word (hc : isNameStart c = true) (rest : List Char) : scan c rest = word c rest := by
  obtain ⟨hlow, hhigh⟩ := code_of_isNameStart hc
  have hgap : ¬ isGap c = true := fun h => by
    have := code_of_isGap h
    omega
  have hdigit : ¬ isDigit c = true := fun h => by
    have := code_of_isDigit h
    omega
  have hne : ∀ d : Char, d.toNat < 65 → c ≠ d := fun d hd => ne_of_code (by omega)
  rw [scan, if_neg hgap, if_neg fun h => hne '/' (by decide) h.1,
    if_neg fun h => h.elim hdigit fun h => hne '.' (by decide) h.1,
    if_neg fun h => h.elim (hne _ (by decide)) (hne _ (by decide)), if_pos hc]

theorem scan_number (hc : isDigit c = true) (rest : List Char) :
    scan c rest = number (c :: rest) := by
  obtain ⟨hlow, hhigh⟩ := code_of_isDigit hc
  have hgap : ¬ isGap c = true := fun h => by
    have := code_of_isGap h
    omega
  rw [scan, if_neg hgap, if_neg fun h => ne_of_code (d := '/') (by simp; omega) h.1,
    if_pos (.inl hc)]

/-- Letters of a name behind the first one, and then something else. -/
theorem takeWhile_isNameChar {letters : List Char} (hletters : ∀ c ∈ letters, isNameChar c = true)
    (hrest : ∀ c ∈ rest.head?, isNameChar c = false) :
    (letters ++ rest).takeWhile isNameChar = letters := by
  rw [takeWhile_append_of_head hrest]
  simpa using @List.takeWhile_append_of_pos _ isNameChar letters [] hletters

end

/-! ## Names and keywords -/

/-- The letters of a name as it is written: those of a word, or a dollar sign before some. -/
inductive IsWord : List Char → Prop
  | plain {c : Char} {rest : List Char} (hc : isNameStart c = true)
      (hrest : ∀ c ∈ rest, isNameChar c = true) : IsWord (c :: rest)
  | dollar {c : Char} {rest : List Char} (hc : c.isAlpha = true)
      (hrest : ∀ c ∈ rest, isNameChar c = true) : IsWord ('$' :: c :: rest)

theorem IsWord.of_all {c : Char} {rest : List Char}
    (h : (isNameStart c && rest.all isNameChar) = true) : IsWord (c :: rest) := by
  obtain ⟨hc, hrest⟩ := Bool.and_eq_true_iff.mp h
  exact .plain hc (List.all_eq_true.mp hrest)

/-- No word begins with a digit. -/
theorem IsWord.head {n : List Char} (h : IsWord n) : n.head?.any (!isDigit ·) = true := by
  cases h with
  | @plain c rest hc _ =>
    obtain ⟨hlow, -⟩ := code_of_isNameStart hc
    have hdigit : isDigit c = false := Bool.eq_false_iff.mpr fun h => by
      have := code_of_isDigit h
      omega
    simp [hdigit]
  | dollar _ _ => rfl

/-- The token that a word is. -/
def wordToken (text : String) : Token :=
  match Keyword.ofSpelling? text with
  | some keyword => .keyword keyword
  | none => .name text

theorem isNameChar_of_isAlpha {c : Char} (h : c.isAlpha = true) : isNameChar c = true := by
  simp [isNameChar, isNameStart, h]

/-- No keyword begins with a dollar sign. -/
theorem ofSpelling?_dollar (letters : List Char) :
    Keyword.ofSpelling? (String.ofList ('$' :: letters)) = none := by
  refine List.find?_eq_none.mpr fun k _ h => ?_
  have hletters := congrArg String.toList (of_decide_eq_true h)
  rw [String.toList_ofList] at hletters
  cases k <;> cases hletters

theorem wordToken_dollar (letters : List Char) :
    wordToken (String.ofList ('$' :: letters)) = .name (String.ofList ('$' :: letters)) := by
  rw [wordToken, ofSpelling?_dollar]

/-- A word is read as a word where no letter follows. -/
theorem scan_isWord {n : List Char} (hn : IsWord n) {rest : List Char}
    (hrest : ∀ c ∈ rest.head?, isNameChar c = false) :
    ∃ c letters, n = c :: letters ∧
      scan c (letters ++ rest) = ⟨.token (wordToken (String.ofList n)), 1 + letters.length⟩ := by
  cases hn with
  | @plain c letters hc hletters =>
    refine ⟨c, letters, rfl, ?_⟩
    rw [scan_word hc, word, takeWhile_isNameChar hletters hrest]
    rfl
  | @dollar c letters hc hletters =>
    refine ⟨'$', c :: letters, rfl, ?_⟩
    have hall : ∀ d ∈ c :: letters, isNameChar d = true :=
      List.forall_mem_cons.mpr ⟨isNameChar_of_isAlpha hc, hletters⟩
    have hscan : scan '$' (c :: letters ++ rest) = dollarName (c :: letters ++ rest) := by
      have hdigit : isDigit '$' = false := by decide
      simp [scan, isGap, isNameStart, hdigit]
    rw [hscan, dollarName, takeWhile_isNameChar hall hrest, wordToken_dollar]
    simp [hc]

/-! ## Strings -/

/-- A character stands in a literal for itself, behind a backslash as a letter, or as its code. -/
theorem literalChar_cases (c : Char) :
    (c ≠ '\x22' ∧ c ≠ '\\' ∧ Text.literalChar c = [c]) ∨
    (∃ letter, letter ≠ 'u' ∧ escapedChar? letter = some c ∧
      Text.literalChar c = ['\\', letter]) ∨
    (c.toNat < 160 ∧ Text.literalChar c = '\\' :: 'u' :: Text.hexDigits 4 c.toNat) := by
  unfold Text.literalChar
  split
  · exact .inr (.inl ⟨'\\', by decide, rfl, rfl⟩)
  · exact .inr (.inl ⟨'\x22', by decide, rfl, rfl⟩)
  · exact .inr (.inl ⟨'n', by decide, rfl, rfl⟩)
  · exact .inr (.inl ⟨'r', by decide, rfl, rfl⟩)
  · exact .inr (.inl ⟨'t', by decide, rfl, rfl⟩)
  · exact .inr (.inl ⟨'b', by decide, rfl, rfl⟩)
  · exact .inr (.inl ⟨'f', by decide, rfl, rfl⟩)
  · rename_i hbackslash hquote _ _ _ _ _
    split
    · rename_i hcontrol
      refine .inr (.inr ⟨?_, rfl⟩)
      simp only [Text.isControl, Bool.or_eq_true, Bool.and_eq_true, decide_eq_true_eq] at hcontrol
      omega
    · exact .inl ⟨hquote, hbackslash, rfl⟩

/-- The code of a control character is written with four digits and is what they denote. -/
theorem hexDigits_four : ∀ n < 160, (Text.hexDigits 4 n).length = 4 ∧
    (Text.hexDigits 4 n).all (Number.isDigit 16) = true ∧
    Number.ofDigits 16 (Text.hexDigits 4 n) = n := by decide +kernel

theorem charOfCode_toNat (c : Char) : charOfCode c.toNat = .ok c := by
  exact dif_pos c.valid

theorem codeUnit_hexDigits {n : Nat} (hn : n < 160) (rest : List Char) :
    codeUnit (Text.hexDigits 4 n ++ rest) = .ok n := by
  obtain ⟨hlength, hdigits, hvalue⟩ := hexDigits_four n hn
  rw [codeUnit, List.take_left' hlength, hvalue]
  exact if_pos ⟨hlength, hdigits⟩

theorem codeEscape_hexDigits {c : Char} (hc : c.toNat < 160) (rest : List Char) :
    codeEscape (Text.hexDigits 4 c.toNat ++ rest) = .ok (c, 4) := by
  have hlow : ¬ (0xD800 ≤ c.toNat ∧ c.toNat < 0xDC00) := fun h => by omega
  unfold codeEscape
  rw [codeUnit_hexDigits hc]
  change (if 0xD800 ≤ c.toNat ∧ c.toNat < 0xDC00 then _ else _ : Except LexFault (Char × Nat)) = _
  rw [if_neg hlow, charOfCode_toNat]
  rfl

theorem stringChars_skip (quote : Char) (front rest : List Char) :
    stringChars quote front.length (front ++ rest) = stringChars quote 0 rest := by
  induction front with
  | nil => rfl
  | cons c front ih => exact ih

theorem stringLength_plain {quote : Char} {front : List Char}
    (h : ∀ c ∈ front, c ≠ quote ∧ c ≠ '\\') (rest : List Char) :
    stringLength quote false (front ++ rest) = front.length + stringLength quote false rest := by
  induction front with
  | nil => exact (Nat.zero_add _).symm
  | cons c front ih =>
    obtain ⟨⟨hquote, hbackslash⟩, hfront⟩ := List.forall_mem_cons.mp h
    rw [List.cons_append, stringLength, if_neg Bool.false_ne_true, if_neg hquote,
      decide_eq_false hbackslash, ih hfront, List.length_cons]
    omega

/-- The letters of one character belong to the string. -/
theorem stringLength_literalChar (c : Char) (rest : List Char) :
    stringLength '\x22' false (Text.literalChar c ++ rest)
      = (Text.literalChar c).length + stringLength '\x22' false rest := by
  rcases literalChar_cases c with ⟨hquote, hbackslash, h⟩ | ⟨letter, -, -, h⟩ | ⟨hc, h⟩
  · rw [h]
    exact stringLength_plain (by simp [hquote, hbackslash]) rest
  · rw [h]
    simp [stringLength]
    omega
  · obtain ⟨-, hdigits, -⟩ := hexDigits_four _ hc
    have hplain : ∀ d ∈ Text.hexDigits 4 c.toNat, d ≠ '\x22' ∧ d ≠ '\\' := by
      intro d hd
      have hdigit := List.all_eq_true.mp hdigits d hd
      constructor <;> (rintro rfl; exact absurd hdigit (by decide))
    rw [h]
    simp only [List.cons_append, stringLength, stringLength_plain hplain, List.length_cons]
    simp
    omega

/-- The letters of one character are read as the character. -/
theorem stringChars_literalChar (c : Char) (rest : List Char) :
    stringChars '\x22' 0 (Text.literalChar c ++ rest)
      = (c :: ·) <$> stringChars '\x22' 0 rest := by
  have hne : ('\\' : Char) ≠ '\x22' := by decide
  rcases literalChar_cases c with ⟨hquote, hbackslash, h⟩ | ⟨letter, hu, hletter, h⟩ | ⟨hc, h⟩
  · rw [h, List.singleton_append, stringChars.eq_def]
    simp only [if_neg hquote, if_neg hbackslash]
  · rw [h, List.cons_append, stringChars.eq_def]
    simp only [if_neg hne, if_true]
    -- the letter is none that announces a code
    split
    · rename_i hnil
      cases hnil
    · rename_i hcons
      cases hcons
      exact absurd rfl hu
    · rename_i hcons
      cases hcons
      rw [hletter]
      rfl
  · have hskip := stringChars_skip '\x22' ('u' :: Text.hexDigits 4 c.toNat) rest
    rw [List.length_cons, (hexDigits_four _ hc).1] at hskip
    rw [h, List.cons_append, List.cons_append, stringChars.eq_def]
    simp only [if_neg hne, if_true, codeEscape_hexDigits hc]
    exact congrArg ((c :: ·) <$> ·) hskip

/-- What stands in a literal behind its first quote. -/
def literalLetters (chars : List Char) : List Char :=
  chars.flatMap Text.literalChar ++ ['\x22']

theorem stringLength_literalLetters (chars rest : List Char) :
    stringLength '\x22' false (literalLetters chars ++ rest) = (literalLetters chars).length := by
  rw [literalLetters]
  induction chars with
  | nil => simp [stringLength]
  | cons c chars ih =>
    rw [List.flatMap_cons, List.append_assoc, List.append_assoc, stringLength_literalChar,
      ← List.append_assoc, ih, List.append_assoc, ← List.length_append]

theorem stringChars_literalLetters (chars : List Char) :
    stringChars '\x22' 0 (literalLetters chars) = .ok chars := by
  rw [literalLetters]
  induction chars with
  | nil => rfl
  | cons c chars ih =>
    rw [List.flatMap_cons, List.append_assoc, stringChars_literalChar, ih]
    rfl

/-- **A string literal is read as its text**, whatever follows. -/
theorem scan_literal (s : String) (rest : List Char) :
    ∃ c letters, (Text.literal s).toList = c :: letters ∧
      scan c (letters ++ rest) = ⟨.token (.string s), 1 + letters.length⟩ := by
  refine ⟨'\x22', literalLetters s.toList, String.toList_ofList, ?_⟩
  have hscan : ∀ text, scan '\x22' text = string '\x22' text := fun text => by
    have hdigit : isDigit '\x22' = false := by decide
    simp [scan, isGap, hdigit]
  rw [hscan, string, stringLength_literalLetters, List.take_left' rfl, stringChars_literalLetters]
  simp only [String.ofList_toList]

/-! ## Numbers -/

/-- The digits of a decimal number before and behind its point, and how many characters they take
with the point. -/
def mantissa (text : List Char) : List Char × List Char × Nat :=
  let whole := text.takeWhile isDigit
  let behind := text.drop whole.length
  let point := if behind.head? = some '.' then 1 else 0
  let fraction := if point = 1 then (behind.drop 1).takeWhile isDigit else []
  (whole, fraction, whole.length + point + fraction.length)

/-- The decimal number with these digits, if `tail` follows them. -/
def decimalEnd (text whole fraction : List Char) (length : Nat) (tail : List Char) : Scan :=
  match tail with
  | '.' :: more =>
    malformedNumber text (length + 1 + (more.takeWhile fun c => isDigit c || c = '.').length)
  | c :: more =>
    if c = 'e' ∨ c = 'E' then
      let sign := if more.head? = some '+' ∨ more.head? = some '-' then 1 else 0
      let power := (more.drop sign).takeWhile isDigit
      if power.isEmpty then malformedNumber text (length + 1 + sign)
      else
        let magnitude : Int := Number.ofDigits 10 power
        let power10 := if more.head? = some '-' then -magnitude else magnitude
        ⟨.token (.number (Number.ofDecimalText whole fraction power10)),
          length + 1 + sign + power.length⟩
    else ⟨.token (.number (Number.ofDecimalText whole fraction 0)), length⟩
  | [] => ⟨.token (.number (Number.ofDecimalText whole fraction 0)), length⟩

theorem decimal_eq (text : List Char) : decimal text =
    decimalEnd text (mantissa text).1 (mantissa text).2.1 (mantissa text).2.2
      (text.drop (mantissa text).2.2) := rfl

/-- Nothing that stands behind a number goes on it. -/
structure EndsNumber (rest : List Char) : Prop where
  letter : ∀ c ∈ rest.head?, isNameChar c = false
  point : ∀ c ∈ rest.head?, c ≠ '.'

section
variable {text rest : List Char} (hrest : EndsNumber rest)
include hrest

theorem EndsNumber.digit : ∀ c ∈ rest.head?, isDigit c = false := fun c hc =>
  (Bool.or_eq_false_iff.mp (hrest.letter c hc)).2

theorem EndsNumber.ne {d : Char} (hd : isNameChar d = true ∨ d = '.') :
    ∀ c ∈ rest.head?, c ≠ d := by
  rintro c hc rfl
  rcases hd with hd | hd
  · simp [hrest.letter c hc] at hd
  · exact hrest.point c hc hd

theorem EndsNumber.head?_append {d : Char} (hd : isNameChar d = true ∨ d = '.')
    (front : List Char) : (front ++ rest).head? = some d ↔ front.head? = some d := by
  cases front with
  | nil => simpa using fun h => hrest.ne hd d h rfl
  | cons c front => rfl

theorem mantissa_append : mantissa (text ++ rest) = mantissa text := by
  have hwhole : (text.takeWhile isDigit).length ≤ text.length :=
    (List.takeWhile_sublist _).length_le
  simp only [mantissa, takeWhile_append_of_head hrest.digit,
    List.drop_append_of_le_length hwhole, hrest.head?_append (.inr rfl)]
  -- there are digits behind a point only if the point is part of the text
  by_cases hpoint : (text.drop (text.takeWhile isDigit).length).head? = some '.'
  · have hone : 1 ≤ (text.drop (text.takeWhile isDigit).length).length := by
      cases h : text.drop (text.takeWhile isDigit).length with
      | nil => simp [h] at hpoint
      | cons => simp
    simp only [hpoint, if_true, List.drop_append_of_le_length hone,
      takeWhile_append_of_head hrest.digit]
  · simp only [hpoint, if_false, Nat.zero_ne_one]

end

theorem mantissa_le (text : List Char) : (mantissa text).2.2 ≤ text.length := by
  have hwhole : (text.takeWhile isDigit).length ≤ text.length :=
    (List.takeWhile_sublist _).length_le
  simp only [mantissa]
  split
  · rename_i hpoint
    have hfraction := (List.takeWhile_sublist isDigit
      (l := (text.drop (text.takeWhile isDigit).length).drop 1)).length_le
    have hone : 0 < (text.drop (text.takeWhile isDigit).length).length := by
      cases h : text.drop (text.takeWhile isDigit).length with
      | nil => simp [h] at hpoint
      | cons => simp
    simp only [List.length_drop] at hfraction hone
    simp only [if_true]
    omega
  · simpa using hwhole

theorem decimalEnd_append {text rest whole fraction tail : List Char} {length : Nat} {t : Token}
    (hrest : EndsNumber rest)
    (h : (decimalEnd text whole fraction length tail).reading = .token t) (text' : List Char) :
    decimalEnd text' whole fraction length (tail ++ rest)
      = decimalEnd text whole fraction length tail := by
  cases tail with
  | nil =>
    cases rest with
    | nil => rfl
    | cons c rest =>
      have hletter : ¬ (c = 'e' ∨ c = 'E') := by
        rintro (rfl | rfl) <;> exact absurd (hrest.letter _ rfl) (by decide)
      have hpoint := hrest.point c rfl
      simp only [decimalEnd, List.nil_append, hletter, if_false]
  | cons c more =>
    have hpoint : c ≠ '.' := by
      rintro rfl
      cases h
    by_cases hletter : c = 'e' ∨ c = 'E'
    · simp only [decimalEnd, List.cons_append, if_pos hletter] at h ⊢
      -- a power of ten has digits, so it begins within the text
      cases more with
      | nil => simp [malformedNumber] at h
      | cons first more =>
        have hhead : (first :: more ++ rest).head? = (first :: more).head? := rfl
        rw [hhead]
        generalize hsign : (if (first :: more).head? = some '+' ∨ (first :: more).head? = some '-'
          then 1 else 0) = sign at h ⊢
        have hle : sign ≤ (first :: more).length := by
          rw [← hsign]
          split <;> simp
        rw [List.drop_append_of_le_length hle, takeWhile_append_of_head hrest.digit]
        split at h
        · cases h
        · rename_i hpower
          rw [if_neg hpower, if_neg hpower]
    · simp only [decimalEnd, List.cons_append, if_neg hletter]

theorem decimal_append {text rest : List Char} {t : Token} (hrest : EndsNumber rest)
    (h : (decimal text).reading = .token t) : decimal (text ++ rest) = decimal text := by
  rw [decimal_eq, mantissa_append hrest, List.drop_append_of_le_length (mantissa_le text),
    decimal_eq text]
  exact decimalEnd_append hrest h _

theorem code_append {base : Nat} {text rest : List Char} {t : Token} (hrest : EndsNumber rest)
    (htwo : 2 ≤ text.length) (h : (code base text).reading = .token t) :
    code base (text ++ rest) = code base text := by
  have hstop : ∀ c ∈ rest.head?, (isNameChar c || c = '.') = false := fun c hc => by
    simp [hrest.letter c hc, hrest.point c hc]
  rw [code, code, List.drop_append_of_le_length htwo, takeWhile_append_of_head hstop]
  rw [code] at h
  split at h
  · rfl
  · cases h

/-- Two letters or digits that a text begins with belong to the number before `rest`. -/
theorem EndsNumber.cons_cons {c d : Char} {text rest tail : List Char} (hrest : EndsNumber rest)
    (hc : isNameChar c = true) (hd : isNameChar d = true) (h : text ++ rest = c :: d :: tail) :
    ∃ tail, text = c :: d :: tail := by
  cases text with
  | nil => exact absurd hc (by simp [hrest.letter c (by rw [← List.nil_append rest, h]; rfl)])
  | cons first text =>
    cases text with
    | nil =>
      obtain ⟨rfl, rfl⟩ := List.cons.inj h
      exact absurd hd (by simp [hrest.letter d rfl])
    | cons second text =>
      obtain ⟨hfirst, htail⟩ := List.cons.inj h
      obtain ⟨hsecond, -⟩ := List.cons.inj htail
      exact ⟨text, by rw [hfirst, hsecond]⟩

theorem number_eq_decimal {text : List Char} (hx : ∀ tail, text ≠ '0' :: 'x' :: tail)
    (hX : ∀ tail, text ≠ '0' :: 'X' :: tail) (hb : ∀ tail, text ≠ '0' :: 'b' :: tail)
    (hB : ∀ tail, text ≠ '0' :: 'B' :: tail) : number text = decimal text := by
  unfold number
  split
  · exact absurd rfl (hx _)
  · exact absurd rfl (hX _)
  · exact absurd rfl (hb _)
  · exact absurd rfl (hB _)
  · rfl

/-- **A number is read as it would be read alone**, where nothing that follows goes on it. -/
theorem number_append {text rest : List Char} {t : Token} (hrest : EndsNumber rest)
    (h : (number text).reading = .token t) : number (text ++ rest) = number text := by
  unfold number at h
  split at h
  · exact code_append hrest (by simp) h
  · exact code_append hrest (by simp) h
  · exact code_append hrest (by simp) h
  · exact code_append hrest (by simp) h
  · rename_i hx hX hb hB
    -- the letter of a base would be part of the text, not of what follows
    have hne : ∀ d : Char, isNameChar d = true → (∀ tail, text ≠ '0' :: d :: tail) →
        ∀ tail, text ++ rest ≠ '0' :: d :: tail := by
      intro d hd hnone tail happend
      obtain ⟨tail, htext⟩ := hrest.cons_cons (by decide) hd happend
      exact hnone tail htext
    rw [number_eq_decimal hx hX hb hB, number_eq_decimal (hne 'x' (by decide) hx)
      (hne 'X' (by decide) hX) (hne 'b' (by decide) hb) (hne 'B' (by decide) hB)]
    exact decimal_append hrest h

/-- Where a number is expected there is one, or rejected text. -/
theorem reading_number_cases (text : List Char) :
    (∃ x, (number text).reading = .token (.number x)) ∨
      ∃ fault, (number text).reading = .rejected fault := by
  have hcode : ∀ base, (∃ x, (code base text).reading = .token (.number x)) ∨
      ∃ fault, (code base text).reading = .rejected fault := by
    intro base
    unfold code
    dsimp only
    split <;> simp [malformedNumber]
  unfold number
  split
  · exact hcode 16
  · exact hcode 16
  · exact hcode 2
  · exact hcode 2
  · rw [decimal_eq]
    unfold decimalEnd
    split
    · simp [malformedNumber]
    · split
      · extract_lets sign power
        split <;> simp [malformedNumber]
      · simp
    · simp

/-! ## Signs, brackets and separators -/

/-- The character begins no gap, name, number or string. -/
def isMark (c : Char) : Bool :=
  !isGap c && !isDigit c && !isNameStart c && c != '\x22' && c != '\x27' && c != '$'

section
variable {c : Char} {rest : List Char} {t : Token} {n : Nat}

theorem scan_mark (hc : isMark c = true) (hcomment : ¬ (c = '/' ∧ rest.head? = some '*'))
    (hpoint : ¬ (c = '.' ∧ rest.head?.any isDigit = true))
    (h : punctuation? c rest.head? = some (t, n)) : scan c rest = ⟨.token t, n⟩ := by
  simp only [isMark, Bool.and_eq_true, Bool.not_eq_true', bne_iff_ne, ne_eq] at hc
  obtain ⟨⟨⟨⟨⟨hgap, hdigit⟩, hstart⟩, hquote⟩, hapostrophe⟩, hdollar⟩ := hc
  have hnumber : ¬ (isDigit c = true ∨ (c = '.' ∧ rest.head?.any isDigit = true)) := by
    rw [not_or]
    exact ⟨by simp [hdigit], hpoint⟩
  rw [scan, if_neg (by simp [hgap]), if_neg hcomment, if_neg hnumber,
    if_neg (by simp [hquote, hapostrophe]), if_neg (by simp [hstart]), if_neg hdollar, h]

/-- A mark that begins neither a comment nor a fraction is read by itself. -/
theorem scan_plain (hc : (isMark c && c != '/' && c != '.') = true)
    (h : punctuation? c rest.head? = some (t, n)) : scan c rest = ⟨.token t, n⟩ := by
  simp only [Bool.and_eq_true, bne_iff_ne, ne_eq] at hc
  exact scan_mark hc.1.1 (fun h => hc.1.2 h.1) (fun h => hc.2 h.1) h

end

/-- Whether the sign ends before the character. -/
def endsSign (c : Char) : Sign → Bool
  | .bang | .assign | .less | .greater => c != '='
  | .slash => c != '*'
  | .dot => !isDigit c
  | _ => true

theorem scan_sign (s : Sign) {rest : List Char} (h : ∀ c ∈ rest.head?, endsSign c s = true) :
    ∃ c letters, s.spelling.toList = c :: letters ∧
      scan c (letters ++ rest) = ⟨.token (.sign s), 1 + letters.length⟩ := by
  have hne : ∀ d, endsSign d s = false → rest.head? ≠ some d := fun d hd hhead => by
    rw [h d hhead] at hd
    cases hd
  cases s with
  | slash =>
    have hcomment : ¬ ('/' = '/' ∧ rest.head? = some '*') := fun h => hne '*' rfl h.2
    exact ⟨'/', [], rfl, scan_mark (by decide) hcomment (by simp) rfl⟩
  | dot =>
    have hpoint : ¬ ('.' = '.' ∧ rest.head?.any isDigit = true) := by
      rintro ⟨-, hany⟩
      cases hhead : rest.head? with
      | none => simp [hhead] at hany
      | some c =>
        have hdigit : isDigit c = true := by simpa [hhead] using hany
        exact hne c (by simp [endsSign, hdigit]) hhead
    exact ⟨'.', [], rfl, scan_mark (by decide) (by simp) hpoint rfl⟩
  | equal => exact ⟨'=', ['='], rfl, scan_plain (by decide) rfl⟩
  | notEqual => exact ⟨'!', ['='], rfl, scan_plain (by decide) rfl⟩
  | lessEqual => exact ⟨'<', ['='], rfl, scan_plain (by decide) rfl⟩
  | greaterEqual => exact ⟨'>', ['='], rfl, scan_plain (by decide) rfl⟩
  | bars => exact ⟨'|', ['|'], rfl, scan_plain (by decide) rfl⟩
  | bang => exact ⟨'!', [], rfl, scan_plain (by decide) (if_neg (hne '=' rfl))⟩
  | assign => exact ⟨'=', [], rfl, scan_plain (by decide) (if_neg (hne '=' rfl))⟩
  | less => exact ⟨'<', [], rfl, scan_plain (by decide) (if_neg (hne '=' rfl))⟩
  | greater => exact ⟨'>', [], rfl, scan_plain (by decide) (if_neg (hne '=' rfl))⟩
  | _ => exact ⟨_, [], rfl, scan_plain (by decide) rfl⟩

theorem scan_bracket (b : Bracket) (rest : List Char) :
    ∃ c, b.spelling.toList = [c] ∧ scan c rest = ⟨.token (.bracket b), 1⟩ := by
  cases b <;> exact ⟨_, rfl, scan_plain (by decide) rfl⟩

end Scan

/-! ## Pieces -/

/-- A token, or a blank. -/
abbrev Piece := Option Token

/-- How canonical text spells a token. -/
def Token.letters : Token → List Char
  | .finish => []
  | .sign s => s.spelling.toList
  | .number x => (Number.text x).toList
  | .string s => (Text.literal s).toList
  | .bracket b => b.spelling.toList
  | .comma => [',']
  | .semicolon => [';']
  | .name n => n.toList
  | .keyword k => k.spelling.toList

/-- How canonical text writes a piece. -/
def Piece.letters : Piece → List Char
  | none => [' ']
  | some t => t.letters

@[simp] theorem letters_sign (s : Sign) : (Token.sign s).letters = s.spelling.toList := rfl

@[simp] theorem letters_number (x : Float) :
    (Token.number x).letters = (Number.text x).toList := rfl

@[simp] theorem letters_string (s : String) :
    (Token.string s).letters = (Text.literal s).toList := rfl

@[simp] theorem letters_bracket (b : Bracket) :
    (Token.bracket b).letters = b.spelling.toList := rfl

@[simp] theorem letters_comma : Token.comma.letters = [','] := rfl

@[simp] theorem letters_semicolon : Token.semicolon.letters = [';'] := rfl

@[simp] theorem letters_name (n : String) : (Token.name n).letters = n.toList := rfl

@[simp] theorem letters_keyword (k : Keyword) :
    (Token.keyword k).letters = k.spelling.toList := rfl

@[simp] theorem letters_none : Piece.letters none = [' '] := rfl

@[simp] theorem letters_some (t : Token) : Piece.letters (some t) = t.letters := rfl

/-- The text of pieces. -/
def spelled (pieces : List Piece) : List Char := pieces.flatMap Piece.letters

@[simp] theorem spelled_nil : spelled [] = [] := rfl

@[simp] theorem spelled_cons (p : Piece) (pieces : List Piece) :
    spelled (p :: pieces) = p.letters ++ spelled pieces := List.flatMap_cons

@[simp] theorem spelled_append (front back : List Piece) :
    spelled (front ++ back) = spelled front ++ spelled back := List.flatMap_append

/-- The text of the number is read as the number. -/
structure Number.ReadsBack (x : Float) : Prop where
  digit : ∃ c ∈ (text x).toList.head?, Scan.isDigit c = true
  read : Scan.number (text x).toList = ⟨.token (.number x), (text x).toList.length⟩

/-- The token is one that its letters spell. -/
def Token.Spellable : Token → Prop
  | .finish => False
  | .number x => Number.ReadsBack x
  | .name n => Scan.IsWord n.toList ∧ Keyword.ofSpelling? n = none
  | _ => True

/-- Whether the token ends before the character. -/
def Token.endsAt (c : Char) : Token → Bool
  | .name _ | .keyword _ => !Scan.isNameChar c
  | .number _ => !Scan.isNameChar c && c != '.'
  | .sign s => Scan.endsSign c s
  | _ => true

theorem spellable_wordToken {name : String} (h : Scan.IsWord name.toList) :
    (Scan.wordToken name).Spellable := by
  unfold Scan.wordToken
  split
  · trivial
  · exact ⟨h, ‹_›⟩

theorem endsAt_wordToken (name : String) (c : Char) :
    (Scan.wordToken name).endsAt c = !Scan.isNameChar c := by
  unfold Scan.wordToken
  split <;> rfl

/-- **A token is read where it is spelled**, if it ends before what follows. -/
theorem scan_letters {t : Token} (ht : t.Spellable) {rest : List Char}
    (hrest : ∀ c ∈ rest.head?, t.endsAt c = true) :
    ∃ c letters, t.letters = c :: letters ∧
      Scan.scan c (letters ++ rest) = ⟨.token t, 1 + letters.length⟩ := by
  cases t with
  | finish => exact ht.elim
  | sign s => exact Scan.scan_sign s hrest
  | number x =>
    obtain ⟨⟨c, hc, hdigit⟩, hread⟩ := ht
    obtain ⟨letters, hletters⟩ := List.head?_eq_some_iff.mp hc
    have hends : Scan.EndsNumber rest := by
      constructor <;> intro d hd <;> have := hrest d hd <;>
        simp only [Token.endsAt, Bool.and_eq_true, Bool.not_eq_true', bne_iff_ne] at this
      · exact this.1
      · exact this.2
    refine ⟨c, letters, hletters, ?_⟩
    have happend := (Scan.number_append hends (congrArg Scan.reading hread)).trans hread
    rw [hletters, List.length_cons, Nat.add_comm] at happend
    rw [Scan.scan_number hdigit]
    exact happend
  | string s => exact Scan.scan_literal s rest
  | bracket b =>
    obtain ⟨c, hletters, hscan⟩ := Scan.scan_bracket b rest
    exact ⟨c, [], hletters, hscan⟩
  | comma => exact ⟨',', [], rfl, Scan.scan_plain (by decide) rfl⟩
  | semicolon => exact ⟨';', [], rfl, Scan.scan_plain (by decide) rfl⟩
  | name n =>
    obtain ⟨c, letters, hletters, hscan⟩ :=
      Scan.scan_isWord ht.1 fun c hc => by simpa [Token.endsAt] using hrest c hc
    rw [String.ofList_toList, Scan.wordToken, ht.2] at hscan
    exact ⟨c, letters, hletters, hscan⟩
  | keyword k =>
    have hword : Scan.IsWord k.spelling.toList := by
      cases k <;> exact .of_all rfl
    obtain ⟨c, letters, hletters, hscan⟩ :=
      Scan.scan_isWord hword fun c hc => by simpa [Token.endsAt] using hrest c hc
    rw [String.ofList_toList, Scan.wordToken, Keyword.ofSpelling?_spelling] at hscan
    exact ⟨c, letters, hletters, hscan⟩

theorem LexesTo.letters {t : Token} (ht : t.Spellable) {rest : List Char} {ts : List Token}
    (hrest : ∀ c ∈ rest.head?, t.endsAt c = true) (h : LexesTo rest ts) :
    LexesTo (t.letters ++ rest) (t :: ts) := by
  obtain ⟨c, letters, hletters, hscan⟩ := scan_letters ht hrest
  rw [hletters]
  exact h.cons hscan

/-! ## Pieces in a row -/

/-- Before a text that begins with a character that `p` allows, and before none, the text of the
pieces is read as their tokens. -/
def LexesBefore (p : Char → Bool) (pieces : List Piece) : Prop :=
  ∀ rest ts, LexesTo rest ts → (∀ c ∈ rest.head?, p c = true) →
    LexesTo (spelled pieces ++ rest) (pieces.reduceOption ++ ts)

/-- What every token but some signs ends before. -/
def isBoundary (c : Char) : Bool := !Scan.isNameChar c && c != '.'

section
variable {p q : Char → Bool} {front back pieces : List Piece} {t : Token}

/-- **A text that is laid out as pieces is read as their tokens.** -/
theorem LexesBefore.lexesTo (h : LexesBefore p pieces) :
    LexesTo (spelled pieces) pieces.reduceOption := by
  have hread := h [] [] lexesTo_nil (by simp)
  rwa [List.append_nil, List.append_nil] at hread

theorem LexesBefore.mono (h : LexesBefore q pieces) (hpq : ∀ c, p c = true → q c = true) :
    LexesBefore p pieces :=
  fun rest ts hts hrest => h rest ts hts fun c hc => hpq c (hrest c hc)

theorem lexesBefore_nil : LexesBefore p [] := fun _ _ hts _ => hts

theorem lexesBefore_token (t : Token) (ht : t.Spellable) : LexesBefore (t.endsAt ·) [some t] := by
  intro rest ts hts hrest
  have hread := hts.letters ht hrest
  simpa using hread

theorem LexesBefore.gap (h : LexesBefore p pieces) : LexesBefore p (none :: pieces) :=
  fun rest ts hts hrest => (h rest ts hts hrest).gap (by decide)

/-- Pieces behind others that end wherever these can begin. -/
theorem LexesBefore.append_of_meet (hf : LexesBefore q front) (hb : LexesBefore p back)
    (hmeet : ∀ rest : List Char, (∀ c ∈ rest.head?, p c = true) →
      ∀ c ∈ (spelled back ++ rest).head?, q c = true) : LexesBefore p (front ++ back) := by
  intro rest ts hts hrest
  rw [spelled_append, List.reduceOption_append, List.append_assoc, List.append_assoc]
  exact hf _ _ (hb rest ts hts hrest) (hmeet rest hrest)

/-- Pieces behind others that end before the first letter of these. -/
theorem LexesBefore.append {next : Piece} (hf : LexesBefore q front)
    (hb : LexesBefore p (next :: back)) (hnext : next.letters.head?.any q = true) :
    LexesBefore p (front ++ next :: back) := by
  refine hf.append_of_meet hb fun rest _ c hc => ?_
  rw [spelled_cons] at hc
  cases hletters : next.letters with
  | nil => simp [hletters] at hnext
  | cons first letters =>
    rw [hletters] at hc hnext
    obtain rfl : first = c := Option.some.inj hc
    exact hnext

theorem LexesBefore.append_of_any (hf : LexesBefore (fun _ => true) front)
    (hb : LexesBefore p back) : LexesBefore p (front ++ back) :=
  hf.append_of_meet hb fun _ _ _ _ => rfl

/-- Pieces behind a token that ends before everything. -/
theorem LexesBefore.cons (h : LexesBefore p pieces) (ht : t.Spellable)
    (hends : ∀ c, t.endsAt c = true) : LexesBefore p (some t :: pieces) :=
  (lexesBefore_token t ht).append_of_meet h fun _ _ c _ => hends c

end

end Formula
