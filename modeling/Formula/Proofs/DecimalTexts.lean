import Formula.Number.Layout
import Formula.Proofs.NumberParts
import Formula.Proofs.Spelling

/-! # Written numbers are read back

A decimal is written with or without a power of ten, and either text is read as one that stands for
the same number (`standsFor_plain`, `standsFor_scientific`).  The shortest decimal of a finite
number is rounded to it, so the text of a finite number that has no minus sign is read as the number
(`Number.readsBack_of_finite`).
-/
namespace Formula

/-! ## Digits -/

namespace Scan

theorem digitValue?_eq {c : Char} (h : isDigit c = true) :
    (Number.digitValue? 10 c).getD 0 = c.toNat - '0'.toNat := by
  obtain ⟨hlow, hhigh⟩ := code_of_isDigit h
  have hdigit : '0' ≤ c ∧ c ≤ '9' := ⟨hlow, hhigh⟩
  have hten : c.toNat - 48 < 10 := by omega
  rw [Number.digitValue?, if_pos hdigit]
  exact congrArg (Option.getD · 0) (if_pos (decide_eq_true hten))

theorem ofDigits_eq {digits : List Char} (h : ∀ c ∈ digits, isDigit c = true) :
    Number.ofDigits 10 digits = Nat.ofDigitChars 10 digits 0 :=
  List.foldl_ext _ _ 0 fun _ c hc => congrArg (10 * _ + ·) (digitValue?_eq (h c hc))

theorem isDigit_of_mem_toDigits {n : ℕ} : ∀ c ∈ Nat.toDigits 10 n, isDigit c = true := fun _ hc =>
  isDigit_of_isDigit (Nat.isDigit_of_mem_toDigits (by decide) (by decide) hc)

theorem isDigit_of_mem_replicate (n : ℕ) : ∀ c ∈ List.replicate n '0', isDigit c = true := by
  intro c hc
  rw [List.eq_of_mem_replicate hc]
  rfl

theorem ofDigits_toDigits (n : ℕ) : Number.ofDigits 10 (Nat.toDigits 10 n) = n := by
  rw [ofDigits_eq isDigit_of_mem_toDigits, Nat.ofDigitChars_ten_toDigits]

/-! ## Numbers with a point and with a power -/

/-- Digits, and behind a point others if there are any. -/
def pointed (whole fraction : List Char) : List Char :=
  if fraction = [] then whole else whole ++ '.' :: fraction

section
variable {whole fraction tail : List Char} (hwhole : ∀ c ∈ whole, isDigit c = true)
  (hfraction : ∀ c ∈ fraction, isDigit c = true)
include hwhole hfraction

theorem mantissa_pointed (htail : ∀ c ∈ tail.head?, isDigit c = false ∧ c ≠ '.') :
    mantissa (pointed whole fraction ++ tail)
      = (whole, fraction, (pointed whole fraction).length) := by
  have hstop : ∀ c ∈ tail.head?, isDigit c = false := fun c hc => (htail c hc).1
  have hself : whole.takeWhile isDigit = whole := List.takeWhile_eq_self_iff.mpr hwhole
  unfold mantissa pointed
  by_cases hnone : fraction = []
  · have hpoint : ¬ tail.head? = some '.' := fun h => (htail '.' h).2 rfl
    simp only [if_pos hnone, takeWhile_append_of_head hstop, hself, List.drop_left, if_neg hpoint]
    simp [hnone]
  · have hself' : fraction.takeWhile isDigit = fraction := List.takeWhile_eq_self_iff.mpr hfraction
    have hpoint : ∀ c ∈ ('.' :: fraction ++ tail).head?, isDigit c = false := by
      rintro c ⟨⟩
      rfl
    simp only [if_neg hnone, List.append_assoc, takeWhile_append_of_head hpoint, hself,
      List.drop_left]
    simp [takeWhile_append_of_head hstop, hself', Nat.add_assoc, Nat.add_comm 1]

omit hfraction in
/-- The text announces no other base than ten. -/
theorem pointed_ne (hne : whole ≠ []) (htail : ∀ c ∈ tail.head?, c = 'e') {d : Char}
    (hd : isDigit d = false) (hpoint : d ≠ '.') (hpower : d ≠ 'e') (rest : List Char) :
    pointed whole fraction ++ tail ≠ '0' :: d :: rest := by
  intro h
  match whole, hne with
  | [first], _ =>
    unfold pointed at h
    split at h
    · obtain ⟨-, rfl⟩ := List.cons.inj h
      exact hpower (htail d rfl)
    · obtain ⟨-, hrest⟩ := List.cons.inj h
      exact hpoint (List.cons.inj hrest).1.symm
  | first :: second :: more, _ =>
    have hsecond : second = d := by
      unfold pointed at h
      split at h <;> exact (List.cons.inj (List.cons.inj h).2).1
    rw [← hsecond, hwhole second (by simp)] at hd
    cases hd

theorem number_append_pointed (hne : whole ≠ []) (htail : ∀ c ∈ tail.head?, c = 'e') :
    number (pointed whole fraction ++ tail) = decimalEnd (pointed whole fraction ++ tail) whole
      fraction (pointed whole fraction).length tail := by
  have hletter : ∀ c ∈ tail.head?, isDigit c = false ∧ c ≠ '.' := fun c hc => by
    rw [htail c hc]
    exact ⟨rfl, by decide⟩
  have hbase : ∀ d, isDigit d = false → d ≠ '.' → d ≠ 'e' → ∀ rest,
      pointed whole fraction ++ tail ≠ '0' :: d :: rest := fun _ =>
    pointed_ne hwhole hne htail
  rw [number_eq_decimal (hbase 'x' rfl (by decide) (by decide))
    (hbase 'X' rfl (by decide) (by decide)) (hbase 'b' rfl (by decide) (by decide))
    (hbase 'B' rfl (by decide) (by decide)), decimal_eq,
    mantissa_pointed hwhole hfraction hletter, List.drop_left]

theorem number_pointed (hne : whole ≠ []) : number (pointed whole fraction)
    = ⟨.token (.number (Number.ofDecimalText whole fraction 0)),
        (pointed whole fraction).length⟩ := by
  rw [← List.append_nil (pointed whole fraction),
    number_append_pointed hwhole hfraction hne (by simp), List.append_nil]
  rfl

/-- A number with a power of ten behind it, which a sign stands before. -/
theorem number_power (hne : whole ≠ []) {sign : Char} (hsign : sign = '+' ∨ sign = '-')
    {power : List Char} (hpower : ∀ c ∈ power, isDigit c = true) (hsome : power ≠ []) :
    number (pointed whole fraction ++ 'e' :: sign :: power)
      = ⟨.token (.number (Number.ofDecimalText whole fraction
          (if sign = '-' then -(Number.ofDigits 10 power : ℤ) else Number.ofDigits 10 power))),
          (pointed whole fraction ++ 'e' :: sign :: power).length⟩ := by
  have hself : power.takeWhile isDigit = power := List.takeWhile_eq_self_iff.mpr hpower
  have hdigits : power.isEmpty = false := by simpa using hsome
  have hlength : (pointed whole fraction ++ 'e' :: sign :: power).length
      = (pointed whole fraction).length + 1 + 1 + power.length := by
    rw [List.length_append, List.length_cons, List.length_cons]
    omega
  rw [number_append_pointed hwhole hfraction hne (by simp), hlength]
  rcases hsign with rfl | rfl <;> simp [decimalEnd, hself, hdigits]

omit hfraction in
theorem head_pointed (hne : whole ≠ []) :
    ∃ c ∈ (pointed whole fraction ++ tail).head?, isDigit c = true := by
  obtain ⟨c, rest, rfl⟩ := List.exists_cons_of_ne_nil hne
  refine ⟨c, ?_, hwhole c (by simp)⟩
  unfold pointed
  split <;> rfl

end

/-- The text is read as a decimal that stands for the number. -/
structure StandsFor (text : List Char) (v : ℚ) : Prop where
  digit : ∃ c ∈ text.head?, isDigit c = true
  read : ∃ d : Decimal, d.value = v ∧
    number text = ⟨.token (.number (Number.ofDecimal d)), text.length⟩

section
variable {whole fraction : List Char} (hwhole : ∀ c ∈ whole, isDigit c = true)
  (hfraction : ∀ c ∈ fraction, isDigit c = true) (hne : whole ≠ [])
include hwhole hfraction hne

omit hne in
theorem ofDigits_append : Number.ofDigits 10 (whole ++ fraction)
    = Nat.ofDigitChars 10 (whole ++ fraction) 0 :=
  ofDigits_eq fun c hc => (List.mem_append.mp hc).elim (hwhole c) (hfraction c)

theorem standsFor_pointed : StandsFor (pointed whole fraction)
    (Nat.ofDigitChars 10 (whole ++ fraction) 0 * 10 ^ (-fraction.length : ℤ)) where
  digit := by
    rw [← List.append_nil (pointed whole fraction)]
    exact head_pointed hwhole hne
  read := by
    refine ⟨_, ?_, number_pointed hwhole hfraction hne⟩
    rw [Decimal.value, ofDigits_append hwhole hfraction, zero_sub]

theorem standsFor_power {sign : Char} (hsign : sign = '+' ∨ sign = '-') (n : ℕ) :
    StandsFor (pointed whole fraction ++ 'e' :: sign :: Nat.toDigits 10 n)
      (Nat.ofDigitChars 10 (whole ++ fraction) 0 *
        10 ^ ((if sign = '-' then -(n : ℤ) else n) - fraction.length)) where
  digit := head_pointed hwhole hne
  read := by
    refine ⟨_, ?_, number_power hwhole hfraction hne hsign isDigit_of_mem_toDigits
      Nat.toDigits_ne_nil⟩
    rw [Decimal.value, ofDigits_append hwhole hfraction, ofDigits_toDigits]

end

end Scan

/-! ## Layout -/

namespace Decimal
open Scan
variable (d : Decimal)

theorem digits_ne_nil : d.digits ≠ [] := Nat.toDigits_ne_nil

theorem isDigit_of_mem_digits : ∀ c ∈ d.digits, isDigit c = true := isDigit_of_mem_toDigits

/-- Zeros before the digits of a number do not count. -/
theorem ofDigitChars_zeros (n : ℕ) :
    Nat.ofDigitChars 10 (List.replicate n '0' ++ d.digits) 0 = d.coefficient := by
  rw [Nat.ofDigitChars_append, Nat.ofDigitChars_replicate_zero, mul_zero, digits,
    Nat.ofDigitChars_ten_toDigits]

section
variable {d} {whole fraction : List Char} {n : ℕ}
  (h : whole ++ fraction = List.replicate n '0' ++ d.digits)
include h

theorem isDigit_of_zeros : (∀ c ∈ whole, isDigit c = true) ∧ ∀ c ∈ fraction, isDigit c = true := by
  have hall : ∀ c ∈ whole ++ fraction, isDigit c = true := by
    rw [h]
    exact fun c hc => (List.mem_append.mp hc).elim (isDigit_of_mem_replicate n c)
      (d.isDigit_of_mem_digits c)
  exact ⟨fun c hc => hall c (List.mem_append_left _ hc),
    fun c hc => hall c (List.mem_append_right _ hc)⟩

/-- Digits with the point at its place. -/
theorem standsFor_of_zeros (hne : whole ≠ []) (hplace : (fraction.length : ℤ) = -d.exponent) :
    StandsFor (pointed whole fraction) d.value := by
  have hread := standsFor_pointed (isDigit_of_zeros h).1 (isDigit_of_zeros h).2 hne
  rwa [h, ofDigitChars_zeros, hplace, neg_neg] at hread

end

/-- Digits with zeros for the power. -/
theorem standsFor_whole (hk : 0 ≤ d.exponent) :
    StandsFor (d.digits ++ List.replicate d.exponent.toNat '0') d.value := by
  have hdigits : ∀ c ∈ d.digits ++ List.replicate d.exponent.toNat '0', isDigit c = true :=
    fun c hc => (List.mem_append.mp hc).elim (d.isDigit_of_mem_digits c)
      (isDigit_of_mem_replicate _ c)
  have hread := standsFor_pointed hdigits (List.forall_mem_nil _) (by simp [d.digits_ne_nil])
  have hvalue : d.value = (10 ^ d.exponent.toNat * d.coefficient : ℕ) := by
    rw [value, mul_comm]
    conv_lhs => rw [← Int.toNat_of_nonneg hk, zpow_natCast]
    norm_num
  rw [List.append_nil, Nat.ofDigitChars_append, Nat.ofDigitChars_replicate_zero, digits,
    Nat.ofDigitChars_ten_toDigits, List.length_nil, Nat.cast_zero, neg_zero, zpow_zero, mul_one,
    ← hvalue] at hread
  exact hread

/-- **A decimal without a power of ten is read as one that stands for the same number.** -/
theorem standsFor_plain : StandsFor d.plain.toList d.value := by
  have hlength := List.length_pos_of_ne_nil d.digits_ne_nil
  have hleading : d.leading + 1 = d.digits.length + d.exponent := by
    rw [leading]
    omega
  unfold plain
  dsimp only
  rw [String.toList_ofList, hleading]
  split
  · exact d.standsFor_whole ‹_›
  · rename_i hk
    split
    · rename_i hpoint
      generalize hp : ((d.digits.length : ℤ) + d.exponent).toNat = p
      have hne : d.digits.drop p ≠ [] := by
        rw [ne_eq, List.drop_eq_nil_iff]
        omega
      have hwhole : d.digits.take p ≠ [] := by
        rw [ne_eq, List.take_eq_nil_iff, not_or]
        exact ⟨by omega, d.digits_ne_nil⟩
      have hread := standsFor_of_zeros (n := 0) (List.take_append_drop p d.digits) hwhole
        (by rw [List.length_drop]; omega)
      rwa [pointed, if_neg hne] at hread
    · rename_i hpoint
      generalize hn : (-((d.digits.length : ℤ) + d.exponent)).toNat = n
      have hne : List.replicate n '0' ++ d.digits ≠ [] := by simp [d.digits_ne_nil]
      have hparts : ['0'] ++ (List.replicate n '0' ++ d.digits)
          = List.replicate (n + 1) '0' ++ d.digits := rfl
      have hread := standsFor_of_zeros hparts (List.cons_ne_nil _ _)
        (by rw [List.length_append, List.length_replicate]; omega)
      rwa [pointed, if_neg hne] at hread

/-- **So is one with a power of ten.** -/
theorem standsFor_scientific : StandsFor (d.scientific "+").toList d.value := by
  obtain ⟨first, rest, hdigits⟩ := List.exists_cons_of_ne_nil d.digits_ne_nil
  have htext : (d.scientific "+").toList = pointed [first] rest ++ 'e' ::
      (if d.leading < 0 then '-' :: Nat.toDigits 10 (-d.leading).toNat
        else '+' :: Nat.toDigits 10 d.leading.toNat) := by
    rw [scientific, hdigits]
    cases rest <;> by_cases hless : d.leading < 0 <;> simp [pointed, hless]
  have hleading : d.leading = rest.length + d.exponent := by
    rw [leading, hdigits, List.length_cons]
    omega
  have hparts : [first] ++ rest = List.replicate 0 '0' ++ d.digits := hdigits.symm
  obtain ⟨hfirst, hrest⟩ := isDigit_of_zeros hparts
  -- the sign of the power and its digits give the power of the first digit
  have hread : ∀ sign, sign = '+' ∨ sign = '-' → ∀ n : ℕ,
      (if sign = '-' then -(n : ℤ) else n) = d.leading →
        StandsFor (pointed [first] rest ++ 'e' :: sign :: Nat.toDigits 10 n) d.value := by
    intro sign hsign n hn
    have hread := standsFor_power hfirst hrest (List.cons_ne_nil _ _) hsign n
    rwa [hparts, ofDigitChars_zeros, hn, hleading, add_sub_cancel_left] at hread
  rw [htext]
  split
  · exact hread '-' (.inr rfl) _ (by rw [if_pos rfl]; omega)
  · exact hread '+' (.inl rfl) _ (by rw [if_neg (by decide)]; omega)

end Decimal

/-! ## Numbers -/

namespace Number
variable {x : Float} (hfinite : Binary64.isFinite x = true)
  (hsign : Binary64.isNegative x = false)
include hfinite hsign

theorem standsFor_text (hzero : ¬ (x == 0.0) = true) :
    Scan.StandsFor (text x).toList (Decimal.shortest x).value := by
  have hnumber := Binary64.isNaN_of_isFinite hfinite
  simp only [text, hnumber, hfinite, hzero, withSign, hsign, Bool.not_true, if_false,
    Bool.false_eq_true]
  split
  · exact (Decimal.shortest x).standsFor_plain
  · exact (Decimal.shortest x).standsFor_scientific

/-- **The text of a finite number without a minus sign is read as the number.** -/
theorem readsBack_of_finite : ReadsBack x := by
  by_cases hzero : (x == 0.0) = true
  · rw [Binary64.eq_zero_of_beq hsign hzero]
    exact ⟨⟨'0', by decide +kernel, rfl⟩, by decide +kernel⟩
  have hpos := Binary64.significand_pos hsign hzero
  obtain ⟨hdigit, d, hvalue, hread⟩ := standsFor_text hfinite hsign hzero
  have hrounds := roundsTo_shortest hpos
  rw [← hvalue] at hrounds
  rw [ofDecimal_eq hfinite hsign hpos hrounds] at hread
  exact ⟨hdigit, hread⟩

end Number
end Formula
