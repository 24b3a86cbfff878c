import Formula.Number.Reading
import Mathlib

/-! # Rounding to the nearest number

The model of binary numbers rounds in two steps: it shifts the exact result to the exponent of the
format, and keeps of what falls off two bits, which tell less than half, half and more than half
apart (`Describes`).  So it finds the whole number that is nearest (`Describes.roundedMantissa`).

What a decimal is rounded to is therefore settled by where it lies: everything between halfway to
the number below and halfway to the number above is rounded to `m · 2 ^ e` (`RoundsTo`), whatever
form the exact result has (`roundWithAccuracy_eq`).  A decimal is one exact product or quotient
(`ofScientific_eq`).
-/
namespace Formula.Binary64
open Float.Model (Format UnpackedFloat totalExponent)
open Float.Model.UnpackedFloat

/-! ## Mantissas and what falls off them -/

/-- The number is the mantissa, a half if the first bit is set, and less than a half that the second
bit tells from nothing. -/
def Describes (em : ExtendedMantissa) (y : ℚ) : Prop :=
  ∃ rest : ℚ, 0 ≤ rest ∧ rest < 1 / 2 ∧
    y = em.mantissa + (if em.roundBit then 1 / 2 else 0) + rest ∧ (em.stickyBit = true ↔ rest ≠ 0)

theorem half_eq (m : ℕ) :
    (m : ℚ) / 2 = ((m / 2 : ℕ) : ℚ) + if m % 2 != 0 then 1 / 2 else 0 := by
  have hsplit : (m : ℚ) = 2 * (m / 2 : ℕ) + (m % 2 : ℕ) := by
    exact_mod_cast (Nat.div_add_mod m 2).symm
  rcases Nat.mod_two_eq_zero_or_one m with h | h <;> rw [h] at hsplit ⊢ <;> simp <;> linarith

theorem Describes.shiftRightOne {em : ExtendedMantissa} {y : ℚ} (h : Describes em y) :
    Describes em.shiftRightOne (y / 2) := by
  obtain ⟨rest, hnonneg, hless, rfl, hsticky⟩ := h
  obtain ⟨m, round, sticky⟩ := em
  dsimp only at hsticky
  refine ⟨(if round then 1 / 4 else 0) + rest / 2, ?_, ?_, ?_, ?_⟩
  · split <;> linarith
  · split <;> linarith
  · change _ = ((m / 2 : ℕ) : ℚ) + (if m % 2 != 0 then 1 / 2 else 0) + _
    rw [← half_eq]
    cases round <;> simp <;> ring
  · change (round || sticky) = true ↔ _
    cases round with
    | false => simp [hsticky]
    | true => exact iff_of_true rfl (by simp; linarith)

theorem Describes.shift {em : ExtendedMantissa} {y : ℚ} (h : Describes em y) (n : ℕ) :
    Describes (em >>> n) (y / 2 ^ n) := by
  induction n with
  | zero =>
    rw [pow_zero, div_one]
    exact h
  | succ n ih =>
    have hstep := ih.shiftRightOne
    rw [div_div, ← pow_succ] at hstep
    exact hstep

/-- Nothing falls off a whole number. -/
theorem describes_exact (m : ℕ) : Describes (.ofMantissaAndAccuracy m .exact) m :=
  ⟨0, le_rfl, by norm_num, by simp [ExtendedMantissa.ofMantissaAndAccuracy],
    by simp [ExtendedMantissa.ofMantissaAndAccuracy]⟩

theorem describes_fraction (m : ℕ) {num den : ℕ} (h : num < den) :
    Describes (.ofMantissaAndAccuracy m (accuracyOfFraction num den)) (m + num / den) := by
  have hden : (0 : ℚ) < den := by exact_mod_cast Nat.zero_lt_of_lt h
  have hless : (num : ℚ) / den < 1 := (div_lt_one hden).mpr (by exact_mod_cast h)
  unfold accuracyOfFraction
  split
  · rename_i hzero
    simpa [hzero] using describes_exact m
  · rename_i hzero
    have hpos : (0 : ℚ) < num / den := div_pos (by exact_mod_cast Nat.pos_of_ne_zero hzero) hden
    rcases lt_trichotomy (2 * num) den with hcase | hcase | hcase
    · rw [Nat.compare_eq_lt.mpr hcase]
      refine ⟨num / den, hpos.le, ?_, by simp [ExtendedMantissa.ofMantissaAndAccuracy],
        by simpa [ExtendedMantissa.ofMantissaAndAccuracy] using hpos.ne'⟩
      rw [div_lt_div_iff₀ hden two_pos]
      exact_mod_cast (by omega : num * 2 < 1 * den)
    · rw [Nat.compare_eq_eq.mpr hcase]
      refine ⟨0, le_rfl, by norm_num, ?_, by simp [ExtendedMantissa.ofMantissaAndAccuracy]⟩
      have hhalf : (num : ℚ) / den = 1 / 2 := by
        rw [div_eq_div_iff hden.ne' two_ne_zero]
        exact_mod_cast (by omega : num * 2 = 1 * den)
      simp [ExtendedMantissa.ofMantissaAndAccuracy, hhalf]
    · rw [Nat.compare_eq_gt.mpr hcase]
      have hmore : (1 : ℚ) / 2 < num / den := by
        rw [div_lt_div_iff₀ two_pos hden]
        exact_mod_cast (by omega : 1 * den < num * 2)
      refine ⟨num / den - 1 / 2, by linarith, by linarith, ?_, ?_⟩
      · simp [ExtendedMantissa.ofMantissaAndAccuracy]
      · simpa [ExtendedMantissa.ofMantissaAndAccuracy] using (sub_pos.mpr hmore).ne'

/-- The whole number is at most a half away, and even if it is exactly a half away. -/
structure Nearest (y : ℚ) (k : ℕ) : Prop where
  low : (k : ℚ) - 1 / 2 ≤ y
  high : y ≤ k + 1 / 2
  tie : y = k - 1 / 2 ∨ y = k + 1 / 2 → k % 2 = 0

/-- **The nearest whole number is found**, and of two the even one. -/
theorem Describes.roundedMantissa {em : ExtendedMantissa} {y : ℚ} {k : ℕ} (h : Describes em y)
    (hk : Nearest y k) : em.roundedMantissa = k := by
  obtain ⟨rest, hnonneg, hless, rfl, hsticky⟩ := h
  obtain ⟨m, round, sticky⟩ := em
  obtain ⟨hlow, hhigh, htie⟩ := hk
  dsimp only at hlow hhigh htie hsticky
  have hcases : k = m ∨ k = m + 1 := by
    have hup : (k : ℚ) < m + 2 := by split at hlow <;> linarith
    have hdown : (m : ℚ) < k + 1 := by split at hhigh <;> linarith
    have hup' : k < m + 2 := by exact_mod_cast hup
    have hdown' : m < k + 1 := by exact_mod_cast hdown
    omega
  cases round with
  | false =>
    have hk : k = m := hcases.resolve_right fun h => by
      rw [h] at hlow
      push_cast at hlow
      linarith
    cases sticky <;> exact hk.symm
  | true =>
    simp only [if_true] at hlow hhigh htie
    cases sticky with
    | false =>
      have hrest : rest = 0 := not_not.mp fun h => Bool.false_ne_true (hsticky.mpr h)
      subst hrest
      change m + m % 2 = k
      rcases hcases with rfl | rfl
      · have heven := htie (.inr (add_zero _))
        omega
      · have heven := htie (.inl (by push_cast; ring))
        omega
    | true =>
      have hrest : rest ≠ 0 := hsticky.mp rfl
      have hk : k = m + 1 := hcases.resolve_left fun h => by
        rw [h] at hhigh
        exact hrest (le_antisymm (by linarith) hnonneg)
      exact hk.symm

/-! ## Numbers of the format -/

/-- The number `m · 2 ^ e` as the format has it: with as great a significand as the least exponent
allows. -/
structure Canonical (m : ℕ) (e : ℤ) : Prop where
  pos : 0 < m
  lt : m < 2 ^ 53
  least : -1074 ≤ e
  full : 2 ^ 52 ≤ m ∨ e = -1074

/-- How far from `m · 2 ^ e` it is halfway to the next number below, in quarters of `2 ^ e`. -/
def quartersBelow (m : ℕ) (e : ℤ) : ℕ := if m = 2 ^ 52 ∧ -1074 < e then 1 else 2

/-- The number `v` is rounded to `m · 2 ^ e`: it is not farther away than halfway to the next
numbers below and above, and nearer if the significand is odd. -/
structure RoundsTo (v : ℚ) (m : ℕ) (e : ℤ) : Prop where
  low : (4 * m - quartersBelow m e : ℚ) * 2 ^ (e - 2) ≤ v
  high : v ≤ (4 * m + 2 : ℚ) * 2 ^ (e - 2)
  tie : v = (4 * m - quartersBelow m e : ℚ) * 2 ^ (e - 2) ∨ v = (4 * m + 2 : ℚ) * 2 ^ (e - 2) →
    m % 2 = 0

/-- The exponent that the format has for a number with its highest bit at a place. -/
theorem targetExponent_eq (place : ℤ) :
    Format.binary64.targetExponent place = max (place - 53) (-1074) := rfl

section
variable {m : ℕ} {e : ℤ} {v : ℚ}

theorem two_zpow_pos (e : ℤ) : (0 : ℚ) < 2 ^ e := zpow_pos two_pos e

theorem Canonical.log2_le (h : Canonical m e) : m.log2 ≤ 52 :=
  Nat.lt_succ_iff.mp ((Nat.log2_lt h.pos.ne').mpr h.lt)

/-- The exponent of a number of the format is that which the format has for it. -/
theorem Canonical.targetExponent (h : Canonical m e) :
    Format.binary64.targetExponent (totalExponent m e) = e := by
  have hlog := h.log2_le
  have hleast := h.least
  rw [targetExponent_eq, totalExponent]
  rcases h.full with hfull | rfl
  · have hlog' : 52 ≤ m.log2 := (Nat.le_log2 h.pos.ne').mpr hfull
    omega
  · omega

theorem quartersBelow_le (m : ℕ) (e : ℤ) : (quartersBelow m e : ℚ) ≤ 2 := by
  unfold quartersBelow
  split <;> norm_num

theorem RoundsTo.of_lt (hlow : (4 * m - quartersBelow m e : ℚ) * 2 ^ (e - 2) < v)
    (hhigh : v < (4 * m + 2 : ℚ) * 2 ^ (e - 2)) : RoundsTo v m e :=
  ⟨hlow.le, hhigh.le, fun h => h.elim (absurd · hlow.ne') (absurd · hhigh.ne)⟩

/-- What is rounded to a number of the format is below the next power of two but one. -/
theorem RoundsTo.lt (h : RoundsTo v m e) (hm : Canonical m e) : v < 2 ^ (e + 53) := by
  have hlt : (m : ℚ) ≤ 2 ^ 53 - 1 := by
    have hsucc : m + 1 ≤ 2 ^ 53 := hm.lt
    have hsucc' : (m : ℚ) + 1 ≤ 2 ^ 53 := by exact_mod_cast hsucc
    linarith
  calc v ≤ (4 * m + 2 : ℚ) * 2 ^ (e - 2) := h.high
    _ < 2 ^ 55 * 2 ^ (e - 2) := by
      refine mul_lt_mul_of_pos_right ?_ (two_zpow_pos _)
      linarith
    _ = 2 ^ (e + 53) := by
      rw [← zpow_natCast, ← zpow_add₀ two_ne_zero]
      congr 1
      omega

theorem RoundsTo.ge (h : RoundsTo v m e) (hm : Canonical m e) : 2 ^ (-1076 : ℤ) ≤ v := by
  have hquarters := quartersBelow_le m e
  have hone : (1 : ℚ) ≤ m := by exact_mod_cast hm.pos
  have hleast := hm.least
  calc (2 : ℚ) ^ (-1076 : ℤ) ≤ 2 ^ (e - 2) := zpow_le_zpow_right₀ one_le_two (by omega)
    _ ≤ (4 * m - quartersBelow m e : ℚ) * 2 ^ (e - 2) :=
      le_mul_of_one_le_left (two_zpow_pos _).le (by linarith)
    _ ≤ v := h.low

theorem RoundsTo.pos (h : RoundsTo v m e) (hm : Canonical m e) : 0 < v :=
  (two_zpow_pos _).trans_le (h.ge hm)

/-- A normal number is above half of the least number with its exponent. -/
theorem RoundsTo.gt (h : RoundsTo v m e) (hm : 2 ^ 52 ≤ m) : 2 ^ (e + 51) < v := by
  have hquarters := quartersBelow_le m e
  have hm' : (2 : ℚ) ^ 52 ≤ m := by exact_mod_cast hm
  calc (2 : ℚ) ^ (e + 51) = 2 ^ 53 * 2 ^ (e - 2) := by
        rw [← zpow_natCast, ← zpow_add₀ two_ne_zero]
        congr 1
        omega
    _ < (4 * m - quartersBelow m e : ℚ) * 2 ^ (e - 2) := by
        refine mul_lt_mul_of_pos_right ?_ (two_zpow_pos _)
        linarith
    _ ≤ v := h.low

theorem RoundsTo.le_of_lt (h : RoundsTo v m e) (hv : v < 2 ^ (e + 52)) : m ≤ 2 ^ 52 := by
  have hquarters := quartersBelow_le m e
  have hwhole : (2 : ℚ) ^ (e + 52) = 2 ^ 54 * 2 ^ (e - 2) := by
    rw [← zpow_natCast, ← zpow_add₀ two_ne_zero]
    congr 1
    omega
  rw [hwhole] at hv
  have hless := lt_of_mul_lt_mul_right (h.low.trans_lt hv) (two_zpow_pos _).le
  have hm : (m : ℚ) < 2 ^ 52 + 1 := by linarith
  exact Nat.lt_succ_iff.mp (by exact_mod_cast hm)

/-- Where the exponent is that of the number, its significand is the nearest whole number. -/
theorem RoundsTo.nearest (h : RoundsTo v m e) : Nearest (v / 2 ^ e) m := by
  have hquarters := quartersBelow_le m e
  have hpos := two_zpow_pos e
  have hquarter : (2 : ℚ) ^ (e - 2) = 2 ^ e / 4 := by
    rw [zpow_sub₀ two_ne_zero]
    norm_num
  obtain ⟨hlow, hhigh, htie⟩ := h
  rw [hquarter] at hlow hhigh htie
  have hy : v = v / 2 ^ e * 2 ^ e := (div_mul_cancel₀ v hpos.ne').symm
  generalize v / 2 ^ e = y at hy ⊢
  subst hy
  have hlow' : (m : ℚ) - quartersBelow m e / 4 ≤ y := by
    by_contra hless
    have := mul_lt_mul_of_pos_right (not_le.mp hless) hpos
    linarith
  have hhigh' : y ≤ m + 1 / 2 := by
    by_contra hmore
    have := mul_lt_mul_of_pos_right (not_le.mp hmore) hpos
    linarith
  refine ⟨by linarith, hhigh', ?_⟩
  rintro (rfl | rfl)
  · refine htie (.inl ?_)
    have hexact : (quartersBelow m e : ℚ) = 2 := le_antisymm hquarters (by linarith)
    rw [hexact]
    ring
  · exact htie (.inr (by ring))

/-- The least significand of an exponent may be rounded to from below: with the exponent below its
own the nearest whole number is twice the significand. -/
theorem RoundsTo.nearest_below (h : RoundsTo v (2 ^ 52) e) (he : -1074 < e)
    (hv : v < 2 ^ (e + 52)) : Nearest (v / 2 ^ (e - 1)) (2 ^ 53) := by
  have hpos := two_zpow_pos (e - 1)
  have hlow := h.low
  rw [quartersBelow, if_pos ⟨rfl, he⟩] at hlow
  have hhalf : (2 : ℚ) ^ (e - 2) = 2 ^ (e - 1) / 2 := by
    rw [show e - 2 = e - 1 - 1 by omega, zpow_sub_one₀ two_ne_zero]
    rfl
  have hwhole : (2 : ℚ) ^ (e + 52) = 2 ^ 53 * 2 ^ (e - 1) := by
    rw [← zpow_natCast, ← zpow_add₀ two_ne_zero]
    congr 1
    omega
  rw [hhalf] at hlow
  rw [hwhole] at hv
  refine ⟨?_, ?_, fun _ => rfl⟩
  · rw [le_div_iff₀ hpos]
    push_cast at hlow ⊢
    linarith
  · rw [div_le_iff₀ hpos]
    push_cast
    linarith

/-- The exponent that an exact result is shifted to is that of the number that it is rounded to, or
the one below if it lies below all numbers with that exponent. -/
theorem targetExponent_cases {M : ℕ} {E : ℤ} {y : ℚ} (hm : Canonical m e) (h : RoundsTo v m e)
    (hlow : (M : ℚ) ≤ y) (hhigh : y < M + 1) (hv : v = y * 2 ^ E)
    (hE : E ≤ Format.binary64.targetExponent (totalExponent M E)) :
    Format.binary64.targetExponent (totalExponent M E) = e ∨
      Format.binary64.targetExponent (totalExponent M E) = e - 1 ∧ m = 2 ^ 52 ∧ -1074 < e ∧
        v < 2 ^ (e + 52) := by
  have hleast := hm.least
  have hposE := two_zpow_pos E
  rw [targetExponent_eq, totalExponent] at hE ⊢
  have hupper : v < 2 ^ (M.log2 + 1 + E : ℤ) := by
    have hM : (M : ℚ) + 1 ≤ 2 ^ (M.log2 + 1) := by exact_mod_cast Nat.lt_log2_self
    rw [zpow_add₀ two_ne_zero, hv]
    refine mul_lt_mul_of_pos_right (lt_of_lt_of_le hhigh ?_) hposE
    exact_mod_cast hM
  have hlower : M ≠ 0 → (2 : ℚ) ^ (M.log2 + E : ℤ) ≤ v := by
    intro hne
    have hM : (2 : ℚ) ^ M.log2 ≤ M := by exact_mod_cast Nat.log2_self_le hne
    rw [zpow_add₀ two_ne_zero, hv, zpow_natCast]
    exact mul_le_mul_of_nonneg_right (hM.trans hlow) hposE.le
  have hbelow : M ≠ 0 → (M.log2 : ℤ) + E < e + 53 := fun hne =>
    (zpow_lt_zpow_iff_right₀ one_lt_two).mp ((hlower hne).trans_lt (h.lt hm))
  -- a mantissa of zero is an exact result below all numbers of the format
  have hzero : M = 0 → E ≤ -1074 := by
    rintro rfl
    rw [Nat.log2_zero] at hE
    omega
  rcases hm.full with hfull | rfl
  · have habove : e + 51 < M.log2 + 1 + E :=
      (zpow_lt_zpow_iff_right₀ one_lt_two).mp ((h.gt hfull).trans hupper)
    have hne : M ≠ 0 := by
      rintro rfl
      have := hzero rfl
      rw [Nat.log2_zero] at habove
      omega
    have hbelow' := hbelow hne
    by_cases hsame : (M.log2 : ℤ) + E = e + 52 ∨ e = -1074
    · left
      omega
    · have hlast : (M.log2 : ℤ) + 1 + E = e + 52 := by omega
      rw [hlast] at hupper
      refine .inr ⟨by omega, ?_, by omega, hupper⟩
      exact le_antisymm (h.le_of_lt hupper) hfull
  · left
    by_cases hM : M = 0
    · have := hzero hM
      rw [hM, Nat.log2_zero]
      omega
    · have := hbelow hM
      omega

/-- The first shift takes an exact result to an exponent that is not below its own. -/
theorem shiftToTargetExponent_eq {M : ℕ} {E target : ℤ} (accuracy : Accuracy)
    (htarget : Format.binary64.targetExponent (totalExponent M E) = target) (hE : E ≤ target) :
    shiftToTargetExponent Format.binary64 M E accuracy
      = (ExtendedMantissa.ofMantissaAndAccuracy M accuracy >>> (target - E).toNat, target) := by
  rw [shiftToTargetExponent, htarget, shiftToExponent, Prod.mk.injEq]
  exact ⟨rfl, by omega⟩

/-- The second shift leaves a number of the format alone. -/
theorem Canonical.shift (h : Canonical m e) :
    shiftToTargetExponent Format.binary64 m e .exact = (⟨m, false, false⟩, e) := by
  rw [shiftToTargetExponent_eq .exact h.targetExponent le_rfl, sub_self]
  rfl

/-- A significand that rounding made too long is halved by the second shift. -/
theorem shift_overflow (he : -1074 < e) :
    shiftToTargetExponent Format.binary64 (2 ^ 53) (e - 1) .exact
      = (⟨2 ^ 52, false, false⟩, e) := by
  have htarget : Format.binary64.targetExponent (totalExponent (2 ^ 53) (e - 1)) = e := by
    rw [targetExponent_eq, totalExponent, Nat.log2_two_pow]
    omega
  rw [shiftToTargetExponent_eq .exact htarget (by omega), sub_sub_cancel]
  rfl

/-- **An exact result is rounded to the number that it lies near.** -/
theorem roundWithAccuracy_eq {M : ℕ} {E : ℤ} {accuracy : Accuracy} {y : ℚ} (hm : Canonical m e)
    (h : RoundsTo v m e) (hdescribes : Describes (.ofMantissaAndAccuracy M accuracy) y)
    (hlow : (M : ℚ) ≤ y) (hhigh : y < M + 1) (hv : v = y * 2 ^ E)
    (hE : E ≤ Format.binary64.targetExponent (totalExponent M E)) (sign : Sign) :
    roundWithAccuracy Format.binary64 sign M E accuracy = .finite sign m e hm.pos := by
  have hcases := targetExponent_cases hm h hlow hhigh hv hE
  generalize htarget : Format.binary64.targetExponent (totalExponent M E) = target at hE hcases
  have hshifted : Describes (ExtendedMantissa.ofMantissaAndAccuracy M accuracy >>>
      (target - E).toNat) (v / 2 ^ target) := by
    have hy : v / 2 ^ target = y / 2 ^ (target - E).toNat := by
      have hamount : target = E + ((target - E).toNat : ℕ) := by omega
      conv_lhs => rw [hv, hamount, zpow_add₀ two_ne_zero, zpow_natCast]
      rw [mul_comm y, mul_div_mul_left _ _ (two_zpow_pos E).ne']
    rw [hy]
    exact hdescribes.shift _
  rw [roundWithAccuracy, shiftToTargetExponent_eq accuracy htarget hE]
  dsimp only
  rcases hcases with rfl | ⟨rfl, rfl, he, hbelow⟩
  · rw [hshifted.roundedMantissa h.nearest, hm.shift]
    exact dif_neg hm.pos.ne'
  · rw [hshifted.roundedMantissa (h.nearest_below he hbelow), shift_overflow he]
    exact dif_neg hm.pos.ne'

/-! ## Decimals -/

/-- An exact result keeps all bits of a significand, or those that the least exponent leaves. -/
theorem le_targetExponent {M : ℕ} {E : ℤ} (h : E ≤ -1074 ∨ 2 ^ 52 ≤ M) :
    E ≤ Format.binary64.targetExponent (totalExponent M E) := by
  rw [targetExponent_eq, totalExponent]
  rcases h with hE | hM
  · omega
  · have hlog : 52 ≤ M.log2 := (Nat.le_log2 (by omega)).mpr hM
    omega

theorem mul_powerOfTen_eq {c n : ℕ} (hc : 0 < c) (hm : Canonical m e)
    (h : RoundsTo (c * 10 ^ n) m e) (sign : Sign) :
    roundWithAccuracy Format.binary64 sign (c <<< 53 * 10 ^ n) (-53) .exact
      = .finite sign m e hm.pos := by
  have hlong : 2 ^ 52 ≤ c <<< 53 * 10 ^ n := by
    rw [Nat.shiftLeft_eq]
    have hpower : 0 < 10 ^ n := by positivity
    nlinarith
  have hvalue : (c * 10 ^ n : ℚ) = (c <<< 53 * 10 ^ n : ℕ) * 2 ^ (-53 : ℤ) := by
    rw [Nat.shiftLeft_eq]
    push_cast
    field_simp
    norm_num
  exact roundWithAccuracy_eq hm h (describes_exact _) le_rfl (lt_add_one _) hvalue
    (le_targetExponent (.inr hlong)) sign

/-- A quotient has enough bits for a significand. -/
theorem long_quotient {a b s : ℕ} (ha : 0 < a) (hb : 0 < b) (hs : 53 + b.log2 ≤ a.log2 + s) :
    2 ^ 52 ≤ a <<< s / b := by
  rw [Nat.le_div_iff_mul_le hb, Nat.shiftLeft_eq]
  calc 2 ^ 52 * b ≤ 2 ^ 52 * 2 ^ (b.log2 + 1) := Nat.mul_le_mul_left _ Nat.lt_log2_self.le
    _ = 2 ^ (53 + b.log2) := by ring
    _ ≤ 2 ^ (a.log2 + s) := Nat.pow_le_pow_right two_pos hs
    _ = 2 ^ a.log2 * 2 ^ s := pow_add 2 _ _
    _ ≤ a * 2 ^ s := Nat.mul_le_mul_right _ (Nat.log2_self_le ha.ne')

theorem div_eq_finite {a b : ℕ} (ha : 0 < a) (hb : 0 < b) (hm : Canonical m e)
    (h : RoundsTo ((a : ℚ) / b) m e) :
    UnpackedFloat.div Format.binary64 (.finite .positive a 0 ha) (.finite .positive b 0 hb)
      = .finite .positive m e hm.pos := by
  rw [UnpackedFloat.div, divCore]
  dsimp only
  generalize htarget : min (0 - 0 : ℤ)
    (Format.binary64.targetExponent (totalExponent a 0 - totalExponent b 0)) = target
  rw [targetExponent_eq, totalExponent, totalExponent] at htarget
  obtain ⟨s, rfl⟩ : ∃ s : ℕ, target = -s := ⟨(-target).toNat, by omega⟩
  have hamount : (0 - 0 - -(s : ℤ)).toNat = s := by omega
  rw [hamount]
  have hlong : -(s : ℤ) ≤ -1074 ∨ 2 ^ 52 ≤ a <<< s / b := by
    by_cases hleast : -(s : ℤ) ≤ -1074
    · exact .inl hleast
    · exact .inr (long_quotient ha hb (by omega))
  have hrest : a <<< s % b < b := Nat.mod_lt _ hb
  have hb' : (0 : ℚ) < b := by exact_mod_cast hb
  have hpart : ((a <<< s % b : ℕ) : ℚ) / b < 1 := (div_lt_one hb').mpr (by exact_mod_cast hrest)
  have hpart' : (0 : ℚ) ≤ (a <<< s % b : ℕ) / b := by positivity
  have hsum : ((a <<< s / b : ℕ) : ℚ) * b + (a <<< s % b : ℕ) = a * 2 ^ s := by
    rw [mul_comm]
    exact_mod_cast (Nat.div_add_mod (a <<< s) b).trans (Nat.shiftLeft_eq a s)
  have hvalue : (a : ℚ) / b = ((a <<< s / b : ℕ) + (a <<< s % b : ℕ) / b) * 2 ^ (-(s : ℤ)) := by
    rw [zpow_neg, zpow_natCast, ← div_eq_mul_inv, div_eq_div_iff hb'.ne' (by positivity), ← hsum,
      add_mul, div_mul_cancel₀ _ hb'.ne']
  exact roundWithAccuracy_eq hm h (describes_fraction _ hrest) (by linarith) (by linarith) hvalue
    (le_targetExponent hlong) _

/-- **A decimal goes to the number that it lies near.** -/
theorem ofScientific_eq {c : ℕ} {k : ℤ} (hc : 0 < c) (hlow : -(2048 + c.log2) ≤ k)
    (hhigh : k ≤ 2048) (hm : Canonical m e) (h : RoundsTo (c * 10 ^ k) m e) :
    UnpackedFloat.ofScientific Format.binary64 c k = .finite .positive m e hm.pos := by
  rw [UnpackedFloat.ofScientific, dif_neg hc.ne', if_neg (by norm_num; omega),
    if_neg (by norm_num; omega)]
  split
  · rename_i hk
    obtain ⟨n, rfl⟩ := Int.eq_ofNat_of_zero_le hk
    rw [zpow_natCast] at h
    exact mul_powerOfTen_eq hc hm h _
  · rename_i hk
    have hpower : (10 : ℚ) ^ k = ((10 ^ (-k).toNat : ℕ) : ℚ)⁻¹ := by
      rw [Nat.cast_pow, ← zpow_natCast, ← zpow_neg, Int.toNat_of_nonneg (by omega), neg_neg]
      rfl
    have hquotient : RoundsTo ((c : ℚ) / (10 ^ (-k).toNat : ℕ)) m e := by
      rwa [hpower, ← div_eq_mul_inv] at h
    exact div_eq_finite hc _ hm hquotient

end

end Formula.Binary64
