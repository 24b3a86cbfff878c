import Formula.Proofs.Scanning

/-! # What stands behind a token does not make it

A token is found in the characters that it takes.  Where the text behind it is cut off, anywhere
behind its last character, the same token is found (`Scan.scan_cut`); so it is also found where
something else stands there, as long as that is separated from it (`Scan.scan_replaced`).
-/
namespace Formula

theorem takeWhile_of_length_le {p : Char → Bool} {front back : List Char}
    (h : ((front ++ back).takeWhile p).length ≤ front.length) :
    front.takeWhile p = (front ++ back).takeWhile p := by
  induction front with
  | nil => exact (List.length_eq_zero_iff.mp (Nat.le_zero.mp h)).symm
  | cons c front ih =>
    rw [List.cons_append] at h ⊢
    by_cases hc : p c = true
    · rw [List.takeWhile_cons_of_pos hc, List.length_cons, List.length_cons] at h
      rw [List.takeWhile_cons_of_pos hc, List.takeWhile_cons_of_pos hc,
        ih (Nat.le_of_succ_le_succ h)]
    · rw [List.takeWhile_cons_of_neg hc, List.takeWhile_cons_of_neg hc]

namespace Scan

section
variable {c : Char} {front back rest : List Char} {quote : Char} {t : Token}

/-! ## Numbers -/

theorem mantissa_cut (h : (mantissa (front ++ back)).2.2 ≤ front.length) :
    mantissa front = mantissa (front ++ back) := by
  simp only [mantissa] at h ⊢
  have hwhole : front.takeWhile isDigit = (front ++ back).takeWhile isDigit :=
    takeWhile_of_length_le (by omega)
  rw [← hwhole] at h ⊢
  generalize hw : (front.takeWhile isDigit).length = w at h ⊢
  rw [List.drop_append_of_le_length (by omega)] at h ⊢
  generalize hbehind : front.drop w = behind at h ⊢
  have hlength : behind.length = front.length - w := by rw [← hbehind, List.length_drop]
  by_cases hpoint : (behind ++ back).head? = some '.'
  · simp only [hpoint, if_true] at h ⊢
    -- the point is one of the characters that the number takes
    have hone : 1 ≤ behind.length := by omega
    have hhead : behind.head? = some '.' := by
      cases behind with
      | nil => simp at hone
      | cons => exact hpoint
    rw [List.drop_append_of_le_length hone] at h ⊢
    have hfraction : (behind.drop 1).takeWhile isDigit
        = (behind.drop 1 ++ back).takeWhile isDigit :=
      takeWhile_of_length_le (by rw [List.length_drop]; omega)
    simp only [hhead, if_true, hfraction]
  · have hhead : behind.head? ≠ some '.' := by
      cases behind with
      | nil => simp
      | cons => exact hpoint
    simp only [hpoint, hhead, if_false, Nat.zero_ne_one]

/-- The sign and the digits of a power of ten behind its letter. -/
def powerLetters (more : List Char) : Nat × List Char :=
  let sign := if more.head? = some '+' ∨ more.head? = some '-' then 1 else 0
  (sign, (more.drop sign).takeWhile isDigit)

theorem decimalEnd_power {text whole fraction more : List Char} {length : Nat}
    (hc : c = 'e' ∨ c = 'E') :
    decimalEnd text whole fraction length (c :: more)
      = let (sign, power) := powerLetters more
        if power.isEmpty then malformedNumber text (length + 1 + sign)
        else
          let magnitude : Int := Number.ofDigits 10 power
          let power10 := if more.head? = some '-' then -magnitude else magnitude
          ⟨.token (.number (Number.ofDecimalText whole fraction power10)),
            length + 1 + sign + power.length⟩ := by
  have hpoint : c ≠ '.' := by
    rintro rfl
    revert hc
    decide
  simp only [decimalEnd, if_pos hc, powerLetters]
  rfl

theorem powerLetters_cut {more : List Char} (hpower : (powerLetters (more ++ back)).2 ≠ [])
    (hle : (powerLetters (more ++ back)).1 + (powerLetters (more ++ back)).2.length ≤ more.length) :
    powerLetters more = powerLetters (more ++ back) ∧ (more ++ back).head? = more.head? := by
  -- a power of ten has digits, so it begins within the text
  have hdigits := List.length_pos_iff.mpr hpower
  cases more with
  | nil =>
    rw [List.length_nil] at hle
    omega
  | cons first more =>
    refine ⟨?_, rfl⟩
    have hhead : (first :: more ++ back).head? = (first :: more).head? := rfl
    simp only [powerLetters, hhead] at hle ⊢
    generalize hsign : (if (first :: more).head? = some '+' ∨ (first :: more).head? = some '-'
      then 1 else 0) = sign at hle ⊢
    have hsignle : sign ≤ (first :: more).length := by
      rw [← hsign]
      split <;> simp
    rw [List.drop_append_of_le_length hsignle] at hle ⊢
    have hcut : ((first :: more).drop sign).takeWhile isDigit
        = ((first :: more).drop sign ++ back).takeWhile isDigit :=
      takeWhile_of_length_le (by rw [List.length_drop]; omega)
    rw [hcut]

theorem le_length_decimalEnd (text whole fraction : List Char) (length : Nat) (tail : List Char) :
    length ≤ (decimalEnd text whole fraction length tail).length := by
  cases tail with
  | nil => exact Nat.le_refl _
  | cons c more =>
    by_cases hpoint : c = '.'
    · subst hpoint
      simp only [decimalEnd, malformedNumber]
      omega
    by_cases hletter : c = 'e' ∨ c = 'E'
    · rw [decimalEnd_power hletter]
      dsimp only
      split
      · simp only [malformedNumber]
        omega
      · dsimp only
        omega
    · simp only [decimalEnd, if_neg hletter, Nat.le_refl]

theorem decimalEnd_cut {text whole fraction tail : List Char} {length : Nat}
    (h : (decimalEnd text whole fraction length (tail ++ back)).reading = .token t)
    (hle : (decimalEnd text whole fraction length (tail ++ back)).length ≤ length + tail.length)
    (text' : List Char) :
    decimalEnd text' whole fraction length tail
      = decimalEnd text whole fraction length (tail ++ back) := by
  cases tail with
  | nil =>
    cases back with
    | nil => rfl
    | cons c back =>
      have hpoint : c ≠ '.' := by
        rintro rfl
        cases h
      by_cases hletter : c = 'e' ∨ c = 'E'
      · rw [List.nil_append, decimalEnd_power hletter] at h hle
        dsimp only at h hle
        split at h
        · cases h
        · rename_i hpower
          rw [if_neg hpower] at hle
          simp only [List.length_nil] at hle
          omega
      · simp only [List.nil_append, decimalEnd, if_neg hletter]
  | cons c more =>
    have hpoint : c ≠ '.' := by
      rintro rfl
      cases h
    by_cases hletter : c = 'e' ∨ c = 'E'
    · rw [List.cons_append, decimalEnd_power hletter] at h hle ⊢
      rw [decimalEnd_power hletter]
      dsimp only at h hle ⊢
      split at h
      · cases h
      · rename_i hpower
        rw [if_neg hpower] at hle
        simp only [List.length_cons] at hle
        obtain ⟨hcut, hhead⟩ := @powerLetters_cut back more
          (fun hnil => hpower (by rw [hnil]; rfl)) (by omega)
        rw [hcut, hhead, if_neg hpower, if_neg hpower]
    · simp only [List.cons_append, decimalEnd, if_neg hletter]

theorem decimal_cut (h : (decimal (front ++ back)).reading = .token t)
    (hle : (decimal (front ++ back)).length ≤ front.length) :
    decimal front = decimal (front ++ back) := by
  rw [decimal_eq] at h hle
  have hshort : (mantissa (front ++ back)).2.2 ≤ front.length :=
    Nat.le_trans (le_length_decimalEnd _ _ _ _ _) hle
  rw [List.drop_append_of_le_length hshort] at h hle
  rw [decimal_eq, decimal_eq (front ++ back), mantissa_cut hshort,
    List.drop_append_of_le_length hshort]
  refine decimalEnd_cut h ?_ front
  rw [List.length_drop]
  omega

theorem code_cut {base : Nat} (h : (code base (front ++ back)).reading = .token t)
    (hle : (code base (front ++ back)).length ≤ front.length) :
    2 ≤ front.length ∧ code base front = code base (front ++ back) := by
  unfold code at h hle ⊢
  dsimp only at h hle ⊢
  cases hread : Number.readCode? base
      (((front ++ back).drop 2).takeWhile fun c => isNameChar c || c = '.') with
  | none =>
    rw [hread] at h
    cases h
  | some x =>
    rw [hread] at hle
    have htwo : 2 ≤ front.length := Nat.le_trans (Nat.le_add_right _ _) hle
    rw [List.drop_append_of_le_length htwo] at hle hread
    have hcut : (front.drop 2).takeWhile (fun c => isNameChar c || c = '.')
        = (front.drop 2 ++ back).takeWhile fun c => isNameChar c || c = '.' := by
      refine takeWhile_of_length_le ?_
      rw [List.length_drop]
      dsimp only at hle
      omega
    refine ⟨htwo, ?_⟩
    rw [List.drop_append_of_le_length htwo, hcut, hread]

theorem number_cut (h : (number (front ++ back)).reading = .token t)
    (hle : (number (front ++ back)).length ≤ front.length) :
    number front = number (front ++ back) := by
  -- the letter of a base is one of the characters that the number takes
  have hcode : ∀ (base : Nat) (d : Char) (tail : List Char), front ++ back = '0' :: d :: tail →
      (code base (front ++ back)).reading = .token t →
      (code base (front ++ back)).length ≤ front.length →
      (∃ tail, front = '0' :: d :: tail) ∧ code base front = code base (front ++ back) := by
    intro base d tail happend h hle
    obtain ⟨htwo, hcut⟩ := code_cut h hle
    refine ⟨?_, hcut⟩
    obtain _ | ⟨first, _ | ⟨second, tail⟩⟩ := front
    · simp at htwo
    · simp at htwo
    · obtain ⟨rfl, htail⟩ := List.cons.inj happend
      obtain ⟨rfl, -⟩ := List.cons.inj htail
      exact ⟨tail, rfl⟩
  generalize htext : front ++ back = text at h hle
  unfold number at h
  split at h
  · obtain ⟨⟨tail, rfl⟩, hcut⟩ := hcode 16 'x' _ htext (htext ▸ h) (htext ▸ hle)
    exact hcut.trans (congrArg _ htext)
  · obtain ⟨⟨tail, rfl⟩, hcut⟩ := hcode 16 'X' _ htext (htext ▸ h) (htext ▸ hle)
    exact hcut.trans (congrArg _ htext)
  · obtain ⟨⟨tail, rfl⟩, hcut⟩ := hcode 2 'b' _ htext (htext ▸ h) (htext ▸ hle)
    exact hcut.trans (congrArg _ htext)
  · obtain ⟨⟨tail, rfl⟩, hcut⟩ := hcode 2 'B' _ htext (htext ▸ h) (htext ▸ hle)
    exact hcut.trans (congrArg _ htext)
  · rename_i hx hX hb hB
    have hfront : ∀ d : Char, (∀ tail, text ≠ '0' :: d :: tail) →
        ∀ tail, front ≠ '0' :: d :: tail := by
      rintro d hnone tail rfl
      exact hnone (tail ++ back) htext.symm
    rw [number_eq_decimal hx hX hb hB] at hle ⊢
    rw [number_eq_decimal (hfront 'x' hx) (hfront 'X' hX) (hfront 'b' hb) (hfront 'B' hB)]
    subst htext
    exact decimal_cut h hle

theorem two_le_length_number {d : Char} (hd : isDigit d = true) (rest : List Char) :
    2 ≤ (number ('.' :: d :: rest)).length := by
  have hnumber : number ('.' :: d :: rest) = decimal ('.' :: d :: rest) :=
    number_eq_decimal nofun nofun nofun nofun
  have hpoint : isDigit '.' = false := by decide
  have hmantissa : 2 ≤ (mantissa ('.' :: d :: rest)).2.2 := by
    simp [mantissa, hpoint, hd]
    omega
  rw [hnumber, decimal_eq]
  exact Nat.le_trans hmantissa (le_length_decimalEnd _ _ _ _ _)

/-! ## Strings and words -/

theorem stringLength_cut {escaped : Bool}
    (h : stringLength quote escaped (front ++ back) ≤ front.length) :
    stringLength quote escaped front = stringLength quote escaped (front ++ back) := by
  induction front generalizing escaped with
  | nil => exact (Nat.le_zero.mp h).symm
  | cons c front ih =>
    simp only [List.cons_append, stringLength, List.length_cons] at h ⊢
    split
    · rename_i hescaped
      rw [if_pos hescaped] at h
      rw [ih (by omega)]
    · rename_i hescaped
      rw [if_neg hescaped] at h
      split
      · rfl
      · rename_i hquote
        rw [if_neg hquote] at h
        rw [ih (by omega)]

theorem string_cut (hle : (string quote (front ++ back)).length ≤ 1 + front.length) :
    string quote front = string quote (front ++ back) := by
  have hshort : stringLength quote false (front ++ back) ≤ front.length :=
    Nat.le_of_add_le_add_left hle
  unfold string
  dsimp only
  rw [stringLength_cut hshort, List.take_append_of_le_length hshort]

theorem word_cut (hle : (word c (front ++ back)).length ≤ 1 + front.length) :
    word c front = word c (front ++ back) := by
  unfold word
  rw [takeWhile_of_length_le (Nat.le_of_add_le_add_left hle)]

theorem dollarName_cut (h : (dollarName (front ++ back)).reading = .token t)
    (hle : (dollarName (front ++ back)).length ≤ 1 + front.length) :
    dollarName front = dollarName (front ++ back) := by
  have hcut : front.takeWhile isNameChar = (front ++ back).takeWhile isNameChar :=
    takeWhile_of_length_le (Nat.le_of_add_le_add_left hle)
  cases front with
  | nil =>
    -- the letter behind the sign would be cut off
    cases back with
    | nil => rfl
    | cons d back =>
      unfold dollarName at h
      dsimp only at h
      split at h
      · rename_i halpha
        have hd : d.isAlpha = true := halpha
        rw [List.nil_append, List.takeWhile_cons_of_pos (isNameChar_of_isAlpha hd)] at hcut
        cases hcut
      · cases h
  | cons d front =>
    unfold dollarName
    rw [hcut]
    rfl

theorem punctuation?_cut {n : Nat} (h : punctuation? c (front ++ back).head? = some (t, n))
    (hle : n ≤ 1 + front.length) : punctuation? c front.head? = some (t, n) := by
  cases front with
  | nil =>
    have hpair : ∀ {next : Char} {both one : Sign},
        (if back.head? = some next then some (Token.sign both, 2) else some (Token.sign one, 1))
          = some (t, n) →
        (if none = some next then some (Token.sign both, 2) else some (Token.sign one, 1))
          = some (t, n) := by
      intro next both one hpair
      split at hpair
      · cases hpair
        simp at hle
      · rw [if_neg nofun, hpair]
    unfold punctuation? at h ⊢
    dsimp only [List.nil_append, List.head?_nil] at h ⊢
    split at h <;> first | exact hpair h | exact h
  | cons d front => exact h

/-! ## Tokens -/

/-- **A token is the same where the text behind it is cut off.** -/
theorem scan_cut (h : (scan c (front ++ back)).reading = .token t)
    (hle : (scan c (front ++ back)).length ≤ 1 + front.length) :
    scan c front = scan c (front ++ back) := by
  unfold scan at h hle ⊢
  split at h
  · cases h
  rename_i hgap
  rw [if_neg hgap] at hle
  rw [if_neg hgap, if_neg hgap]
  split at h
  · cases h
  rename_i hcomment
  rw [if_neg hcomment] at hle
  have hcomment' : ¬ (c = '/' ∧ front.head? = some '*') := by
    rintro ⟨hc, hstar⟩
    cases front with
    | nil => cases hstar
    | cons => exact hcomment ⟨hc, hstar⟩
  rw [if_neg hcomment, if_neg hcomment']
  split at h
  · rename_i hnumber
    rw [if_pos hnumber] at hle
    have hcut : number (c :: front) = number (c :: front ++ back) := number_cut h (by
      rw [List.length_cons, Nat.add_comm]
      exact hle)
    have hnumber' : isDigit c = true ∨ c = '.' ∧ front.head?.any isDigit = true := by
      refine hnumber.imp id fun ⟨hpoint, hdigit⟩ => ⟨hpoint, ?_⟩
      cases front with
      | nil =>
        cases back with
        | nil => cases hdigit
        | cons d back =>
          -- the digit behind the point would be cut off
          subst hpoint
          have htwo := two_le_length_number (d := d) hdigit back
          exact absurd (Nat.le_trans htwo hle) (by decide)
      | cons => exact hdigit
    rw [if_pos hnumber, if_pos hnumber', hcut]
    rfl
  rename_i hnumber
  rw [if_neg hnumber] at hle
  have hnumber' : ¬ (isDigit c = true ∨ c = '.' ∧ front.head?.any isDigit = true) := by
    refine fun h => hnumber (h.imp id fun ⟨hpoint, hdigit⟩ => ⟨hpoint, ?_⟩)
    cases front with
    | nil => cases hdigit
    | cons => exact hdigit
  rw [if_neg hnumber, if_neg hnumber']
  split at h
  · rename_i hquote
    rw [if_pos hquote] at hle
    rw [if_pos hquote, if_pos hquote, string_cut hle]
  rename_i hquote
  rw [if_neg hquote] at hle
  rw [if_neg hquote, if_neg hquote]
  split at h
  · rename_i hstart
    rw [if_pos hstart] at hle
    rw [if_pos hstart, if_pos hstart, word_cut hle]
  rename_i hstart
  rw [if_neg hstart] at hle
  rw [if_neg hstart, if_neg hstart]
  split at h
  · rename_i hdollar
    rw [if_pos hdollar] at hle
    rw [if_pos hdollar, if_pos hdollar, dollarName_cut h hle]
  rename_i hdollar
  rw [if_neg hdollar] at hle
  rw [if_neg hdollar, if_neg hdollar]
  split at h
  · rename_i token length hsome
    rw [hsome] at hle
    rw [punctuation?_cut hsome hle]
  · cases h

/-- **A token is the same where something else stands behind it** that is separated from it. -/
theorem scan_replaced {d : Char} (hd : separates d = true)
    (h : (scan c (front ++ back)).reading = .token t)
    (hle : (scan c (front ++ back)).length ≤ 1 + front.length) (rest : List Char) :
    scan c (front ++ d :: rest) = scan c (front ++ back) := by
  have hcut := scan_cut h hle
  rw [← hcut] at h ⊢
  exact scan_append hd h rest

end
end Scan
end Formula
