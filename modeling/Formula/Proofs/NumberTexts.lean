import Formula.Proofs.Layout
import Formula.Proofs.Numerals
import Formula.Value.Coercion

/-! # Texts that are numbers

Two readers turn text into numbers.  The lexer takes a number off the beginning of a text and
rejects one that a letter or a point spoils; the conversion of strings takes the whole text or
nothing.  On texts without a sign they accept the same decimals, with the same value
(`readDecimal?_eq_some_iff`), and the same digits of a base, but for one spelling: the conversion
lets a plus sign stand between `0x` or `0b` and the digits, and the lexer does not
(`toNumber_string`).
-/
namespace Formula

/-! ## One token -/

section
variable {c : Char} {rest : List Char}

/-- A text is one token if the piece at its beginning is that token and goes to its end. -/
theorem lexemes_cons_eq_iff {t : Token} :
    lexemes (c :: rest) = [.token ⟨t, 0, byteLength (c :: rest)⟩] ↔
      Scan.scan c rest = ⟨.token t, (c :: rest).length⟩ := by
  constructor
  · intro h
    have hmem : .token ⟨t, 0, byteLength (c :: rest)⟩ ∈ lexemesFrom 0 0 (c :: rest) := by
      change _ ∈ lexemes (c :: rest)
      rw [h]
      exact .head _
    rcases mem_lexemesFrom_cons hmem with ⟨token, hreading, heq⟩ | hlater
    · obtain ⟨rfl, -, hstop⟩ := PlacedToken.mk.inj heq
      have hlength : (Scan.scan c rest).length = (c :: rest).length := by
        have hwhole : c :: rest ++ [] = c :: rest := List.append_nil _
        have hle : (Scan.scan c rest).length ≤ (c :: rest ++ []).length := by
          rw [hwhole]
          exact Scan.scan_length_le c rest
        refine length_eq_of_byteLength_take hle ?_
        rw [hwhole]
        omega
      rw [← hreading, ← hlength]
    · have hplace := (place_of_mem hlater).1
      have hsize := c.utf8Size_pos
      dsimp only at hplace
      omega
  · intro h
    have hlater : ∀ offset, lexemesFrom rest.length offset rest = [] := fun offset => by
      simpa [lexemesFrom] using lexemesFrom_skip rest [] offset
    simp [lexemes, lexemesFrom, h, Lexeme.ofReading?, hlater]

/-- The tokens of a text are one token and the end if the text is that token. -/
theorem tokenize_eq_one_iff {text : List Char} {t : PlacedToken} :
    tokenize (String.ofList text) = .ok [t, finishOf text] ↔ lexemes text = [.token t] := by
  have htokens : ∀ tokens, tokensOf (String.ofList text) (lexemes text) = .ok tokens ↔
      lexemes text = tokens.map .token := fun tokens => tokensOf_eq_ok_iff
  unfold tokenize
  rw [String.toList_ofList]
  constructor
  · intro h
    obtain ⟨tokens, htok, heq⟩ := Scan.ok_of_map h
    have hfinish : tokens ++ [finishOf text] = [t] ++ [finishOf text] := heq
    obtain rfl := List.append_cancel_right hfinish
    exact (htokens _).mp htok
  · intro h
    rw [(htokens [t]).mpr h]
    rfl

end

namespace Scan

/-! ## The lexer -/

section
variable {c : Char} {rest : List Char} {x : Float} {n : Nat}

/-- Numbers begin with a digit, or with a point and a digit. -/
theorem first_of_number (h : (scan c rest).reading = .token (.number x)) :
    isDigit c = true ∨ (c = '.' ∧ rest.head?.any isDigit = true) := by
  unfold scan at h
  split at h
  · cases h
  split at h
  · cases h
  split at h
  · assumption
  split at h
  · unfold string at h
    dsimp only at h
    split at h <;> cases h
  split at h
  · unfold word at h
    dsimp only at h
    split at h <;> cases h
  split at h
  · unfold dollarName at h
    dsimp only at h
    split at h <;> cases h
  split at h
  · rename_i token length hsome
    obtain rfl : token = .number x := Reading.token.inj h
    unfold punctuation? at hsome
    dsimp only at hsome
    split at hsome <;> (try split at hsome) <;> cases hsome
  · cases h

theorem scan_of_first
    (h : isDigit c = true ∨ (c = '.' ∧ rest.head?.any isDigit = true)) :
    scan c rest = number (c :: rest) := by
  rcases h with hdigit | ⟨rfl, hdigit⟩
  · exact scan_number hdigit rest
  · rw [scan, if_neg (by decide), if_neg fun h => absurd h.1 (by decide),
      if_pos (.inr ⟨rfl, hdigit⟩)]

end

/-! ## Decimals -/

/-- The digits before and behind the point of a text, and what stands behind them. -/
def parts (text : List Char) : List Char × List Char × List Char :=
  match text.dropWhile isDigit with
  | '.' :: behind => (text.takeWhile isDigit, behind.takeWhile isDigit, behind.dropWhile isDigit)
  | behind => (text.takeWhile isDigit, [], behind)

/-- The power of ten that stands behind the digits of a decimal, all of it. -/
def readTail? : List Char → Option Int
  | [] => some 0
  | c :: behind => if c = 'e' ∨ c = 'E' then Number.readPower? behind else none

theorem parts_cases (text : List Char) :
    (∃ behind, text.dropWhile isDigit = '.' :: behind ∧
        parts text
          = (text.takeWhile isDigit, behind.takeWhile isDigit, behind.dropWhile isDigit)) ∨
      ((text.dropWhile isDigit).head? ≠ some '.' ∧
        parts text = (text.takeWhile isDigit, [], text.dropWhile isDigit)) := by
  unfold parts
  split
  · rename_i behind hbehind
    exact .inl ⟨behind, hbehind, rfl⟩
  · rename_i behind hpoint
    refine .inr ⟨fun hhead => ?_, rfl⟩
    obtain ⟨more, hmore⟩ := List.head?_eq_some_iff.mp hhead
    exact hpoint more hmore

theorem drop_takeWhile_length (p : Char → Bool) (text : List Char) :
    text.drop (text.takeWhile p).length = text.dropWhile p := by
  calc text.drop (text.takeWhile p).length
      = (text.takeWhile p ++ text.dropWhile p).drop (text.takeWhile p).length := by
        rw [List.takeWhile_append_dropWhile]
    _ = text.dropWhile p := List.drop_left

/-- The lexer takes a decimal apart in the same way. -/
theorem mantissa_eq (text : List Char) :
    ∃ length, mantissa text = ((parts text).1, (parts text).2.1, length) ∧
      text.drop length = (parts text).2.2 := by
  unfold mantissa
  dsimp only
  rw [drop_takeWhile_length]
  rcases parts_cases text with ⟨behind, hbehind, hparts⟩ | ⟨hpoint, hparts⟩
  · rw [hparts, hbehind]
    refine ⟨(text.takeWhile isDigit).length + 1 + (behind.takeWhile isDigit).length, by simp, ?_⟩
    rw [← List.drop_drop, ← List.drop_drop, drop_takeWhile_length, hbehind]
    exact drop_takeWhile_length isDigit behind
  · rw [hparts, if_neg hpoint]
    exact ⟨_, by simp, drop_takeWhile_length isDigit text⟩

/-- A sign and what stands behind it. -/
theorem splitSign_eq (text : List Char) :
    Number.splitSign text = (decide (text.head? = some '-'),
      text.drop (if text.head? = some '+' ∨ text.head? = some '-' then 1 else 0)) := by
  unfold Number.splitSign
  split
  · rfl
  · rfl
  · rename_i hminus hplus
    cases text with
    | nil => rfl
    | cons c rest =>
      have hm : c ≠ '-' := fun h => hminus rest (by rw [h])
      have hp : c ≠ '+' := fun h => hplus rest (by rw [h])
      simp [hm, hp]

theorem length_takeWhile_eq_iff {p : Char → Bool} {text : List Char} :
    (text.takeWhile p).length = text.length ↔ text.all p = true := by
  rw [List.all_eq_true]
  constructor
  · intro h c hc
    rw [← (List.takeWhile_sublist p).eq_of_length h] at hc
    exact List.mem_takeWhile_imp hc
  · intro h
    rw [List.takeWhile_eq_self_iff.mpr h]

theorem sign_le_length (text : List Char) : (powerLetters text).1 ≤ text.length := by
  cases text with
  | nil => simp [powerLetters]
  | cons c rest =>
    simp only [powerLetters, List.length_cons]
    split <;> omega

/-- A power of ten that is the whole of a text. -/
theorem readPower?_eq_some_iff {text : List Char} {n : Int} :
    Number.readPower? text = some n ↔
      (powerLetters text).2 ≠ [] ∧
        (powerLetters text).1 + (powerLetters text).2.length = text.length ∧
        n = if text.head? = some '-' then -(Number.ofDigits 10 (powerLetters text).2 : Int)
          else Number.ofDigits 10 (powerLetters text).2 := by
  have hsign := sign_le_length text
  have hsplit : Number.splitSign text
      = (decide (text.head? = some '-'), text.drop (powerLetters text).1) := splitSign_eq text
  have hpower : (powerLetters text).2 = (text.drop (powerLetters text).1).takeWhile isDigit := rfl
  have hlength := List.length_drop (i := (powerLetters text).1) (l := text)
  rw [hpower, Number.readPower?, hsplit]
  generalize text.drop (powerLetters text).1 = digits at hlength ⊢
  by_cases hall : digits.all isDigit = true
  · rw [List.takeWhile_eq_self_iff.mpr (List.all_eq_true.mp hall)]
    have hwhole : (powerLetters text).1 + digits.length = text.length := by omega
    cases digits with
    | nil => simp
    | cons c rest =>
      have hall' : (c :: rest).all (Number.isDigit 10) = true := hall
      rw [and_iff_right (List.cons_ne_nil c rest), and_iff_right hwhole]
      simp [hall', eq_comm]
  · have hshort : (digits.takeWhile isDigit).length ≠ digits.length :=
      fun h => hall (length_takeWhile_eq_iff.mp h)
    have hall' : digits.all (Number.isDigit 10) = false := Bool.eq_false_iff.mpr hall
    have hne : (powerLetters text).1 + (digits.takeWhile isDigit).length ≠ text.length := by omega
    simp [hall', hne]

/-- A decimal goes to the end of its text if a power of ten or nothing goes from its digits to the
end. -/
theorem decimalEnd_eq_iff {text whole fraction tail : List Char} {length : Nat} {x : Float}
    (hlength : length + tail.length = text.length) :
    decimalEnd text whole fraction length tail = ⟨.token (.number x), text.length⟩ ↔
      ∃ power, readTail? tail = some power ∧ x = Number.ofDecimalText whole fraction power := by
  cases tail with
  | nil =>
    rw [List.length_nil] at hlength
    simp [decimalEnd, readTail?, ← hlength, eq_comm]
  | cons c more =>
    rw [List.length_cons] at hlength
    by_cases hc : c = 'e' ∨ c = 'E'
    · rw [decimalEnd_power hc, readTail?, if_pos hc]
      simp only [readPower?_eq_some_iff]
      cases hpower : (powerLetters more).2 with
      | nil => simp [malformedNumber]
      | cons d digits =>
        have hwhole : length + 1 + (powerLetters more).1 + (d :: digits).length = text.length ↔
            (powerLetters more).1 + (d :: digits).length = more.length := by omega
        simp only [List.isEmpty_cons, Bool.false_eq_true, if_false, Scan.mk.injEq, hwhole]
        simp [eq_comm, and_comm]
    · rw [readTail?, if_neg hc]
      refine iff_of_false (fun h => ?_) (by rintro ⟨_, ⟨⟩, -⟩)
      unfold decimalEnd at h
      split at h
      · cases h
      · rename_i heq
        obtain ⟨rfl, rfl⟩ := List.cons.inj heq
        rw [if_neg hc] at h
        have hlengths := congrArg Scan.length h
        dsimp only at hlengths
        omega
      · rename_i heq
        cases heq

section
variable {c : Char} {rest : List Char} {x : Float}

/-- The lexer reads a text as one decimal if what stands behind its digits is a power of ten or
nothing. -/
theorem decimal_eq_iff (text : List Char) :
    decimal text = ⟨.token (.number x), text.length⟩ ↔
      ∃ power, readTail? (parts text).2.2 = some power ∧
        x = Number.ofDecimalText (parts text).1 (parts text).2.1 power := by
  obtain ⟨length, hmantissa, htail⟩ := mantissa_eq text
  have hle : length ≤ text.length := by
    have := mantissa_le text
    rwa [hmantissa] at this
  rw [decimal_eq, hmantissa]
  dsimp only
  rw [htail]
  refine decimalEnd_eq_iff ?_
  rw [← htail, List.length_drop]
  omega

/-- A text has digits before or behind its point if it begins like a number. -/
theorem parts_ne_nil_iff :
    ((parts (c :: rest)).1 ≠ [] ∨ (parts (c :: rest)).2.1 ≠ []) ↔
      isDigit c = true ∨ (c = '.' ∧ rest.head?.any isDigit = true) := by
  have hpoint : isDigit '.' = false := by decide
  by_cases hc : isDigit c = true
  · refine iff_of_true (.inl ?_) (.inl hc)
    rcases parts_cases (c :: rest) with ⟨behind, -, hparts⟩ | ⟨-, hparts⟩ <;>
      simp [hparts, hc]
  · have hwhole : (c :: rest).takeWhile isDigit = [] := by simp [hc]
    have hdrop : (c :: rest).dropWhile isDigit = c :: rest := by simp [hc]
    rcases parts_cases (c :: rest) with ⟨behind, hbehind, hparts⟩ | ⟨hne, hparts⟩
    · rw [hdrop] at hbehind
      obtain ⟨rfl, rfl⟩ := List.cons.inj hbehind
      rw [hparts, hwhole]
      cases rest with
      | nil => simp [hpoint]
      | cons d rest => by_cases hd : isDigit d = true <;> simp [hpoint, hd]
    · rw [hdrop] at hne
      have hc' : c ≠ '.' := by simpa using hne
      rw [hparts, hwhole]
      simp [hc, hc']

end
end Scan

namespace Number
open Scan
variable {text : List Char} {x : Float}

/-- The conversion takes a decimal without a sign apart in that way, too. -/
theorem readDecimal?_eq (hsign : ∀ c ∈ text.head?, c ≠ '+' ∧ c ≠ '-') :
    readDecimal? text =
      if (parts text).1.isEmpty && (parts text).2.1.isEmpty then none
      else (readTail? (parts text).2.2).map fun power =>
        ofDecimalText (parts text).1 (parts text).2.1 power := by
  have hsplit : splitSign text = (false, text) := by
    cases text with
    | nil => rfl
    | cons c rest =>
      obtain ⟨hplus, hminus⟩ := hsign c rfl
      rw [splitSign_eq]
      simp [hplus, hminus]
  have hsigned : ∀ y, Binary64.signed false y = y := fun _ => rfl
  have hdigit : Scan.isDigit = isDigit 10 := rfl
  rcases parts_cases text with ⟨behind, hbehind, hparts⟩ | ⟨hpoint, hparts⟩
  · rw [hdigit] at hbehind hparts
    simp only [readDecimal?, hsplit, hbehind, hparts, hsigned]
    cases behind.dropWhile (isDigit 10) <;> rfl
  · rw [hdigit] at hpoint hparts
    simp only [readDecimal?, hsplit, hparts, hsigned]
    generalize text.dropWhile (isDigit 10) = tail at hpoint ⊢
    split
    · exact absurd rfl hpoint
    · cases tail <;> rfl

/-- A decimal without a sign has a digit, and behind its digits a power of ten or nothing. -/
theorem readDecimal?_eq_some_iff (hsign : ∀ c ∈ text.head?, c ≠ '+' ∧ c ≠ '-') :
    readDecimal? text = some x ↔
      ((parts text).1 ≠ [] ∨ (parts text).2.1 ≠ []) ∧
        ∃ power, readTail? (parts text).2.2 = some power ∧
          x = ofDecimalText (parts text).1 (parts text).2.1 power := by
  have hdigits : ((parts text).1.isEmpty && (parts text).2.1.isEmpty) = true ↔
      ¬ ((parts text).1 ≠ [] ∨ (parts text).2.1 ≠ []) := by simp
  have hsame : ∀ power, ofDecimalText (parts text).1 (parts text).2.1 power = x ↔
      x = ofDecimalText (parts text).1 (parts text).2.1 power := fun _ => eq_comm
  rw [readDecimal?_eq hsign]
  split
  · rename_i hnone
    exact iff_of_false nofun fun h => hdigits.mp hnone h.1
  · rename_i hsome
    rw [and_iff_right (not_not.mp (mt hdigits.mpr hsome)), Option.map_eq_some_iff]
    simp only [hsame]

theorem isForeignLetter_of_isDigit {c : Char} (h : Scan.isDigit c = true) :
    isForeignLetter c = false := by
  have halpha : c.isAlpha = false := by
    rw [Bool.eq_false_iff]
    intro hletter
    have hname : Scan.isNameStart c = true := by simp [Scan.isNameStart, hletter]
    have hlow := code_of_isNameStart hname
    have hhigh := code_of_isDigit h
    omega
  simp [isForeignLetter, halpha]

theorem any_isForeignLetter_of_all {digits : List Char} (h : digits.all Scan.isDigit = true) :
    digits.any isForeignLetter = false := by
  rw [List.any_eq_false]
  intro c hc
  simp [isForeignLetter_of_isDigit (List.all_eq_true.mp h c hc)]

theorem any_isForeignLetter_of_readPower? {n : Int} (h : readPower? text = some n) :
    text.any isForeignLetter = false := by
  obtain ⟨-, hwhole, -⟩ := readPower?_eq_some_iff.mp h
  have hdigits : (text.drop (powerLetters text).1).all Scan.isDigit = true := by
    rw [← length_takeWhile_eq_iff, List.length_drop]
    change (powerLetters text).2.length = _
    omega
  have hsign : (text.take (powerLetters text).1).any isForeignLetter = false := by
    cases text with
    | nil => rfl
    | cons c rest =>
      simp only [powerLetters, List.head?_cons, Option.some.injEq]
      split
      · rename_i hc
        rcases hc with rfl | rfl <;> rfl
      · rfl
  rw [← List.take_append_drop (powerLetters text).1 text, List.any_append, hsign,
    any_isForeignLetter_of_all hdigits]
  rfl

/-- The characters of a decimal are no letters, except the one before the power of ten. -/
theorem any_isForeignLetter_of_readDecimal? (hsign : ∀ c ∈ text.head?, c ≠ '+' ∧ c ≠ '-')
    (h : readDecimal? text = some x) : text.any isForeignLetter = false := by
  obtain ⟨-, power, htail, -⟩ := (readDecimal?_eq_some_iff hsign).mp h
  have hdigits : ∀ l : List Char, (l.takeWhile Scan.isDigit).any isForeignLetter = false :=
    fun _ => any_isForeignLetter_of_all List.all_takeWhile
  have hrest : (parts text).2.2.any isForeignLetter = false := by
    cases hparts : (parts text).2.2 with
    | nil => rfl
    | cons c behind =>
      rw [hparts, readTail?] at htail
      split at htail
      · rename_i hc
        have hletter : isForeignLetter c = false := by rcases hc with rfl | rfl <;> decide
        rw [List.any_cons, hletter, any_isForeignLetter_of_readPower? htail]
        rfl
      · cases htail
  rw [← List.takeWhile_append_dropWhile (p := Scan.isDigit) (l := text), List.any_append, hdigits]
  rcases parts_cases text with ⟨behind, hbehind, hparts⟩ | ⟨-, hparts⟩
  · have hbehind' : behind.any isForeignLetter = false := by
      rw [← List.takeWhile_append_dropWhile (p := Scan.isDigit) (l := behind), List.any_append,
        hdigits]
      rw [hparts] at hrest
      exact hrest
    rw [hbehind, List.any_cons, hbehind']
    rfl
  · rw [hparts] at hrest
    exact hrest

end Number

/-! ## Digits of a base -/

/-- The base that a letter announces behind a zero. -/
def baseOf? (mark : Char) : Option Nat :=
  if mark = 'x' ∨ mark = 'X' then some 16 else if mark = 'b' ∨ mark = 'B' then some 2 else none

/-- Whether a text begins with a zero and a letter that announces a base. -/
def IsMarked (text : List Char) : Prop :=
  ∃ mark digits base, text = '0' :: mark :: digits ∧ baseOf? mark = some base

section
variable {base : Nat} {mark : Char} {digits : List Char} {x : Float}

theorem baseOf?_eq_some (h : baseOf? mark = some base) :
    ((mark = 'x' ∨ mark = 'X') ∧ base = 16) ∨ ((mark = 'b' ∨ mark = 'B') ∧ base = 2) := by
  unfold baseOf? at h
  split at h
  · exact .inl ⟨‹_›, (Option.some.inj h).symm⟩
  · split at h
    · exact .inr ⟨‹_›, (Option.some.inj h).symm⟩
    · cases h

namespace Number

theorem readCode?_plus (base : Nat) (digits : List Char) :
    readCode? base ('+' :: digits) = none := by
  have hplus : isDigit base '+' = false := by simp [isDigit, digitValue?]
  simp [readCode?, hplus]

theorem all_isDigit_of_readCode? (h : readCode? base digits = some x) :
    digits.all (isDigit base) = true := by
  unfold readCode? at h
  split at h
  · cases h
  · rename_i hdigits
    simpa using (not_or.mp (mt (Bool.or_eq_true _ _).mpr hdigits)).2

end Number

namespace Scan

theorem isNameChar_of_isDigit {c : Char} (h : Number.isDigit base c = true) :
    isNameChar c = true := by
  have hletter : c.isAlpha = true → isNameChar c = true := fun hc => by
    simp [isNameChar, isNameStart, hc]
  unfold Number.isDigit Number.digitValue? at h
  split at h
  · rename_i hrange
    have hdigit : c.isDigit = true := by simpa [Char.isDigit, Char.le_def] using hrange
    rw [isNameChar, isDigit_of_isDigit hdigit, Bool.or_true]
  split at h
  · rename_i hrange
    refine hletter (Bool.or_eq_true_iff.mpr (.inr ?_))
    exact Bool.and_eq_true_iff.mpr ⟨decide_eq_true hrange.1,
      decide_eq_true (Nat.le_trans hrange.2 (by decide))⟩
  split at h
  · rename_i hrange
    refine hletter (Bool.or_eq_true_iff.mpr (.inl ?_))
    exact decide_eq_true ⟨hrange.1, Nat.le_trans hrange.2 (by decide)⟩
  · cases h

/-- The lexer reads a text as the digits of a base if the conversion does. -/
theorem code_eq_iff (mark : Char) :
    code base ('0' :: mark :: digits)
        = ⟨.token (.number x), ('0' :: mark :: digits).length⟩ ↔
      Number.readCode? base digits = some x := by
  have hdrop : ('0' :: mark :: digits).drop 2 = digits := rfl
  simp only [code, hdrop]
  constructor
  · intro h
    split at h
    · rename_i y hread
      obtain ⟨hnumber, hlength⟩ := Scan.mk.inj h
      obtain rfl : y = x := by cases hnumber; rfl
      rw [List.length_cons, List.length_cons] at hlength
      rwa [(List.takeWhile_sublist _).eq_of_length (by omega)] at hread
    · cases h
  · intro h
    have hall : ∀ c ∈ digits, (isNameChar c || decide (c = '.')) = true := fun c hc => by
      rw [isNameChar_of_isDigit (List.all_eq_true.mp (Number.all_isDigit_of_readCode? h) c hc)]
      rfl
    rw [List.takeWhile_eq_self_iff.mpr hall, h, List.length_cons, List.length_cons,
      Nat.add_comm 2]

theorem number_of_mark (h : baseOf? mark = some base) (digits : List Char) :
    number ('0' :: mark :: digits) = code base ('0' :: mark :: digits) := by
  rcases baseOf?_eq_some h with ⟨rfl | rfl, rfl⟩ | ⟨rfl | rfl, rfl⟩ <;> rfl

theorem number_of_not_isMarked {text : List Char} (h : ¬ IsMarked text) :
    number text = decimal text := by
  refine number_eq_decimal ?_ ?_ ?_ ?_ <;> rintro digits rfl <;> exact h ⟨_, digits, _, rfl, rfl⟩

end Scan
end

/-! ## Numerals -/

/-- The lexer reads the whole text as one token, and that is a number. -/
def IsNumeral (text : List Char) (x : Float) : Prop :=
  tokenize (String.ofList text) = .ok [⟨.number x, 0, byteLength text⟩, finishOf text]

/-- The text without the plus sign that may stand before the digits of a base. -/
def withoutPlus : List Char → List Char
  | '0' :: mark :: digits =>
    '0' :: mark :: if (baseOf? mark).isSome then Number.dropPlus digits else digits
  | text => text

section
variable {base : Nat} {mark : Char} {digits text : List Char} {x : Float}

theorem isNumeral_cons_iff {c : Char} {rest : List Char} :
    IsNumeral (c :: rest) x ↔
      Scan.scan c rest = ⟨.token (.number x), (c :: rest).length⟩ :=
  tokenize_eq_one_iff.trans lexemes_cons_eq_iff

/-- Behind the announcement of a base there are its digits alone. -/
theorem isNumeral_mark_iff (h : baseOf? mark = some base) :
    IsNumeral ('0' :: mark :: digits) x ↔ Number.readCode? base digits = some x := by
  rw [isNumeral_cons_iff, Scan.scan_number (by decide), Scan.number_of_mark h]
  exact Scan.code_eq_iff mark

/-- Any other text without a sign is a numeral if the conversion reads it as a decimal. -/
theorem isNumeral_iff_of_not_isMarked (hne : text ≠ [])
    (hsign : ∀ c ∈ text.head?, c ≠ '+' ∧ c ≠ '-') (h : ¬ IsMarked text) :
    IsNumeral text x ↔ Number.readDecimal? text = some x := by
  obtain ⟨c, rest, rfl⟩ := List.exists_cons_of_ne_nil hne
  rw [isNumeral_cons_iff, Number.readDecimal?_eq_some_iff hsign, Scan.parts_ne_nil_iff,
    ← Scan.decimal_eq_iff, ← Scan.number_of_not_isMarked h]
  constructor
  · intro hscan
    have hfirst := Scan.first_of_number (congrArg Scan.reading hscan)
    exact ⟨hfirst, Scan.scan_of_first hfirst ▸ hscan⟩
  · rintro ⟨hfirst, hnumber⟩
    rw [Scan.scan_of_first hfirst, hnumber]

theorem withoutPlus_of_mark (h : baseOf? mark = some base) (digits : List Char) :
    withoutPlus ('0' :: mark :: digits) = '0' :: mark :: Number.dropPlus digits := by
  simp [withoutPlus, h]

theorem withoutPlus_of_not_isMarked (h : ¬ IsMarked text) : withoutPlus text = text := by
  unfold withoutPlus
  split
  · rename_i mark digits
    rw [if_neg]
    intro hbase
    obtain ⟨base, hbase⟩ := Option.isSome_iff_exists.mp hbase
    exact h ⟨mark, digits, base, rfl, hbase⟩
  · rfl

/-- With a plus sign there no text is a numeral. -/
theorem not_isNumeral_of_withoutPlus_ne (h : withoutPlus text ≠ text) : ¬ IsNumeral text x := by
  by_cases hmarked : IsMarked text
  · obtain ⟨mark, digits, base, rfl, hbase⟩ := hmarked
    rw [isNumeral_mark_iff hbase]
    rw [withoutPlus_of_mark hbase] at h
    unfold Number.dropPlus at h
    split at h
    · simp [Number.readCode?_plus]
    · exact absurd rfl h
  · exact absurd (withoutPlus_of_not_isMarked hmarked) h

end

/-! ## The conversion of strings -/

namespace Number
section
variable {s : String} {base : Nat} {mark : Char} {digits : List Char} {x : Float}

theorem ofText_mark (htrim : Text.trim s.toList = '0' :: mark :: digits)
    (h : baseOf? mark = some base) :
    ofText s = (readCode? base (dropPlus digits)).getD Binary64.nan := by
  unfold ofText
  dsimp only
  rw [htrim, if_neg (List.cons_ne_nil _ _), if_neg (by simp), if_neg (by simp)]
  rcases baseOf?_eq_some h with ⟨rfl | rfl, rfl⟩ | ⟨rfl | rfl, rfl⟩ <;> rfl

/-- Without an announcement of a base the conversion takes a decimal or nothing: no decimal has a
letter that it refuses. -/
theorem ofText_of_not_isMarked (hne : Text.trim s.toList ≠ [])
    (hinfinity : Text.trim s.toList ≠ "Infinity".toList)
    (hsign : ∀ c ∈ (Text.trim s.toList).head?, c ≠ '+' ∧ c ≠ '-')
    (h : ¬ IsMarked (Text.trim s.toList)) :
    ofText s = (readDecimal? (Text.trim s.toList)).getD Binary64.nan := by
  have hplus : Text.trim s.toList ≠ "+Infinity".toList := fun heq =>
    (hsign '+' (by rw [heq]; rfl)).1 rfl
  have hminus : Text.trim s.toList ≠ "-Infinity".toList := fun heq =>
    (hsign '-' (by rw [heq]; rfl)).2 rfl
  unfold ofText
  dsimp only
  rw [if_neg hne, if_neg (not_or.mpr ⟨hinfinity, hplus⟩), if_neg hminus]
  generalize Text.trim s.toList = text at hsign h
  split
  · exact absurd ⟨_, _, _, rfl, rfl⟩ h
  · exact absurd ⟨_, _, _, rfl, rfl⟩ h
  · exact absurd ⟨_, _, _, rfl, rfl⟩ h
  · exact absurd ⟨_, _, _, rfl, rfl⟩ h
  · split
    · rename_i hforeign
      cases hread : readDecimal? text with
      | none => rfl
      | some y =>
        exact absurd (any_isForeignLetter_of_readDecimal? hsign hread) (by simp [hforeign])
    · rfl

theorem getD_nan_eq_iff {read? : Option Float} (hread : ∀ y, read? = some y → y.isNaN = false) :
    (read?.getD Binary64.nan = x ∧ x.isNaN = false) ↔ read? = some x := by
  cases read? with
  | none =>
    have hnan : Binary64.nan.isNaN = true := by decide +kernel
    refine iff_of_false ?_ nofun
    rintro ⟨rfl, hx⟩
    exact Bool.false_ne_true (hx.symm.trans hnan)
  | some y =>
    rw [Option.getD_some, Option.some.injEq]
    refine and_iff_left_of_imp ?_
    rintro rfl
    exact hread y rfl

theorem isNaN_of_readDecimal? {text : List Char} (hsign : ∀ c ∈ text.head?, c ≠ '+' ∧ c ≠ '-')
    (h : readDecimal? text = some x) : x.isNaN = false := by
  obtain ⟨-, power, -, rfl⟩ := (readDecimal?_eq_some_iff hsign).mp h
  exact isNaN_ofDecimalText ..

end
end Number

/-- **A string without a sign is a number if the lexer reads its text as one**, and the same number:
all of the text but white space at the ends, without a plus sign between the announcement of a base
and its digits.  With such a sign the lexer reads no number. -/
theorem toNumber_string {s : String} (hne : Text.trim s.toList ≠ [])
    (hinfinity : Text.trim s.toList ≠ "Infinity".toList)
    (hsign : ∀ c ∈ (Text.trim s.toList).head?, c ≠ '+' ∧ c ≠ '-') :
    (∀ x, ((Value.string s).toNumber = x ∧ x.isNaN = false) ↔
        IsNumeral (withoutPlus (Text.trim s.toList)) x) ∧
      (withoutPlus (Text.trim s.toList) ≠ Text.trim s.toList →
        ∀ x, ¬ IsNumeral (Text.trim s.toList) x) := by
  refine ⟨fun x => ?_, fun hplus _ => not_isNumeral_of_withoutPlus_ne hplus⟩
  rw [show (Value.string s).toNumber = Number.ofText s from by rw [Value.toNumber]]
  by_cases hmarked : IsMarked (Text.trim s.toList)
  · obtain ⟨mark, digits, base, htrim, hbase⟩ := hmarked
    rw [Number.ofText_mark htrim hbase, htrim, withoutPlus_of_mark hbase, isNumeral_mark_iff hbase]
    exact Number.getD_nan_eq_iff fun _ => Number.isNaN_of_readCode?
  · rw [Number.ofText_of_not_isMarked hne hinfinity hsign hmarked,
      withoutPlus_of_not_isMarked hmarked, isNumeral_iff_of_not_isMarked hne hsign hmarked]
    exact Number.getD_nan_eq_iff fun _ => Number.isNaN_of_readDecimal? hsign

theorem toNumber_string_decimal_and_plus :
    IsNumeral "12.5e-1".toList 1.25 ∧ IsNumeral "0X1f".toList 31.0 ∧
      ∀ x, ¬ IsNumeral "0X+1f".toList x := by
  have hdecimal := toNumber_string (s := " 12.5e-1 ") (by decide) (by decide)
    (by rintro c ⟨⟩; decide)
  have hplus := toNumber_string (s := "0X+1f ") (by decide) (by decide) (by rintro c ⟨⟩; decide)
  exact ⟨(hdecimal.1 1.25).mp ⟨by decide +kernel, by decide +kernel⟩,
    (hplus.1 31.0).mp ⟨by decide +kernel, by decide +kernel⟩, hplus.2 (by decide)⟩

/-- The string `0x+10` is the number 16, and the lexer reads no number there. -/
theorem number_behind_plus :
    Text.trim "0x+10".toList = "0x+10".toList ∧ (Value.string "0x+10").toNumber = 16.0 ∧
      (16.0 : Float).isNaN = false ∧ ∀ x, ¬ IsNumeral "0x+10".toList x :=
  ⟨by decide, by decide +kernel, by decide +kernel,
    fun _ => not_isNumeral_of_withoutPlus_ne (by decide)⟩

end Formula
