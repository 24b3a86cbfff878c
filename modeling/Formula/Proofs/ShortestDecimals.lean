import Formula.Number.Shortest
import Formula.Proofs.Rounding
import Mathlib

/-! # The shortest decimal is rounded to its number

The interval around a number holds just the decimals that are rounded to it
(`contains_ofParts_iff`).
The grid of seventeen digits is finer than the interval is wide, so one of the two neighbours of the
number lies in it (`exists_neighbour`), and the search ends with a decimal of the interval
(`roundsTo_search`).
-/
namespace Formula
open Binary64 (Canonical RoundsTo quartersBelow two_zpow_pos)

namespace Decimal

/-- The number that a decimal stands for. -/
def value (d : Decimal) : ℚ := d.coefficient * 10 ^ d.exponent

/-! ## Powers of ten -/

theorem ten_zpow_pos (k : ℤ) : (0 : ℚ) < 10 ^ k := zpow_pos (by norm_num) k

/-- A power of either sign as a quotient of natural numbers. -/
theorem zpow_eq_div (b : ℚ) (n : ℤ) : b ^ n = b ^ n.toNat / b ^ (-n).toNat := by
  rcases Int.le_total 0 n with hn | hn
  · lift n to ℕ using hn
    simp
  · obtain ⟨j, hj⟩ := Int.eq_ofNat_of_zero_le (Int.neg_nonneg.mpr hn)
    obtain rfl : n = -j := by omega
    simp

theorem digitCount_pos (n : ℕ) : 0 < digitCount n := Nat.length_toDigits_pos

theorem lt_ten_pow_digitCount (n : ℕ) : n < 10 ^ digitCount n :=
  (Nat.length_toDigits_le_iff (by decide) (digitCount_pos n)).mp le_rfl

theorem ten_pow_le_of_pos {n : ℕ} (hn : 0 < n) : 10 ^ (digitCount n - 1) ≤ n := by
  by_contra hless
  have hcount := digitCount_pos n
  have hone : 0 < digitCount n - 1 := by
    by_contra hzero
    rw [Nat.eq_zero_of_not_pos hzero] at hless
    omega
  have := (Nat.length_toDigits_le_iff (by decide) hone).mpr (not_le.mp hless)
  rw [← digitCount] at this
  omega

theorem digitCount_le_log2 (n : ℕ) : digitCount n ≤ n.log2 + 1 := by
  refine (Nat.length_toDigits_le_iff (by decide) (Nat.succ_pos _)).mpr ?_
  exact Nat.lt_log2_self.trans_le (Nat.pow_le_pow_left (by decide) _)

theorem ten_zpow_le {n : ℕ} (hn : 0 < n) (k : ℤ) :
    (10 : ℚ) ^ (digitCount n + k - 1 : ℤ) ≤ n * 10 ^ k := by
  have hcount := digitCount_pos n
  have hpower : (digitCount n + k - 1 : ℤ) = (digitCount n - 1 : ℕ) + k := by omega
  rw [hpower, zpow_add₀ (by norm_num), zpow_natCast]
  exact mul_le_mul_of_nonneg_right (by exact_mod_cast ten_pow_le_of_pos hn) (ten_zpow_pos k).le

theorem lt_ten_zpow (n : ℕ) (k : ℤ) : (n : ℚ) * 10 ^ k < 10 ^ (digitCount n + k : ℤ) := by
  rw [zpow_add₀ (by norm_num), zpow_natCast]
  exact mul_lt_mul_of_pos_right (by exact_mod_cast lt_ten_pow_digitCount n) (ten_zpow_pos k)

theorem ten_zpow_magnitude_le {num den : ℕ} (hnum : 0 < num) (hden : 0 < den) :
    (10 : ℚ) ^ magnitude num den ≤ num / den := by
  have hden' : (0 : ℚ) < den := by exact_mod_cast hden
  unfold magnitude
  split
  · rename_i hle
    have hcount := digitCount_pos (num / den)
    have hwhole := ten_pow_le_of_pos (Nat.div_pos hle hden)
    calc (10 : ℚ) ^ ((digitCount (num / den) : ℤ) - 1) = 10 ^ (digitCount (num / den) - 1) := by
          rw [← zpow_natCast]
          congr 1
          omega
      _ ≤ (num / den : ℕ) := by exact_mod_cast hwhole
      _ ≤ num / den := Nat.cast_div_le
  · have hless := lt_ten_pow_digitCount ((den - 1) / num)
    generalize digitCount ((den - 1) / num) = j at hless ⊢
    rw [Nat.div_lt_iff_lt_mul hnum] at hless
    rw [zpow_neg, zpow_natCast, inv_eq_one_div, div_le_div_iff₀ (by positivity) hden']
    rw [mul_comm] at hless
    exact_mod_cast (by omega : 1 * den ≤ num * 10 ^ j)

/-! ## The interval -/

namespace Interval

/-- The number lies between the ends, or is one of them if they belong to the interval. -/
def Contains (i : Interval) (v : ℚ) : Prop :=
  if i.closed then (i.low : ℚ) ≤ v * i.den ∧ v * i.den ≤ i.high
  else (i.low : ℚ) < v * i.den ∧ v * i.den < i.high

theorem holds_iff (i : Interval) (c : ℕ) (k : ℤ) :
    i.holds c k = true ↔ i.Contains (c * 10 ^ k) := by
  -- both sides are compared over the denominator of the power of ten
  have hscaled : ∀ point unit : ℕ, 0 < unit → (point : ℚ) = c * 10 ^ k * i.den * unit →
      ((if i.closed then decide (i.low * unit ≤ point) && decide (point ≤ i.high * unit)
        else decide (i.low * unit < point) && decide (point < i.high * unit)) = true
          ↔ i.Contains (c * 10 ^ k)) := by
    intro point unit hunit hpoint
    have hunit' : (0 : ℚ) < unit := by exact_mod_cast hunit
    unfold Contains
    split <;> rw [Bool.and_eq_true, decide_eq_true_eq, decide_eq_true_eq]
    · rw [← Nat.cast_le (α := ℚ), ← Nat.cast_le (α := ℚ), Nat.cast_mul, Nat.cast_mul, hpoint,
        mul_le_mul_iff_left₀ hunit', mul_le_mul_iff_left₀ hunit']
    · rw [← Nat.cast_lt (α := ℚ), ← Nat.cast_lt (α := ℚ), Nat.cast_mul, Nat.cast_mul, hpoint,
        mul_lt_mul_iff_left₀ hunit', mul_lt_mul_iff_left₀ hunit']
  unfold holds
  split
  rename_i point unit hpair
  refine hscaled point unit ?_ ?_
  all_goals
    split at hpair <;> obtain ⟨rfl, rfl⟩ := Prod.mk.inj hpair
  · exact one_pos
  · exact Nat.pow_pos (by decide)
  · rename_i hk
    lift k to ℕ using hk
    rw [Nat.pow_eq, Int.toNat_natCast, zpow_natCast]
    push_cast
    ring
  · rename_i hk
    rw [zpow_eq_div, show k.toNat = 0 by omega, Nat.pow_eq]
    push_cast
    field_simp

/-- A number of quarters over the denominator of the interval. -/
theorem cast_mul_scale (quarters : ℕ) (e : ℤ) :
    ((quarters * Nat.pow 2 (e - 2).toNat : ℕ) : ℚ)
      = quarters * 2 ^ (e - 2) * (Nat.pow 2 (2 - e).toNat : ℕ) := by
  rw [Nat.pow_eq, Nat.pow_eq, zpow_eq_div, neg_sub]
  push_cast
  field_simp

/-- **The interval around a number holds what is rounded to it.** -/
theorem contains_ofParts_iff {m : ℕ} {e : ℤ} (hm : Canonical m e) (v : ℚ) :
    (ofParts m e).Contains v ↔ RoundsTo v m e := by
  have hbelow : (if m = Nat.pow 2 52 ∧ -1074 < e then 4 * m - 1 else 4 * m - 2)
      = 4 * m - quartersBelow m e := by
    rw [quartersBelow, Nat.pow_eq]
    split <;> rfl
  have hlow : ((4 * m - quartersBelow m e : ℕ) : ℚ) = 4 * m - quartersBelow m e := by
    have hquarters : quartersBelow m e ≤ 2 := by exact_mod_cast Binary64.quartersBelow_le m e
    have hpos := hm.pos
    rw [Nat.cast_sub (by omega), Nat.cast_mul, Nat.cast_ofNat]
  have hhigh : ((4 * m + 2 : ℕ) : ℚ) = 4 * m + 2 := by norm_num
  have hden : (0 : ℚ) < (Nat.pow 2 (2 - e).toNat : ℕ) := by
    exact_mod_cast Nat.pow_pos two_pos
  unfold Contains ofParts
  dsimp only
  rw [hbelow, cast_mul_scale, cast_mul_scale, hlow, hhigh, mul_le_mul_iff_left₀ hden,
    mul_le_mul_iff_left₀ hden, mul_lt_mul_iff_left₀ hden, mul_lt_mul_iff_left₀ hden]
  by_cases heven : m % 2 = 0
  · rw [if_pos (decide_eq_true heven)]
    exact ⟨fun h => ⟨h.1, h.2, fun _ => heven⟩, fun h => ⟨h.low, h.high⟩⟩
  · rw [if_neg (by simpa using heven)]
    refine ⟨fun h => .of_lt h.1 h.2, fun h => ⟨?_, ?_⟩⟩
    · exact lt_of_le_of_ne h.low fun hends => heven (h.tie (.inl hends.symm))
    · exact lt_of_le_of_ne h.high fun hends => heven (h.tie (.inr hends))

/-! ## The grids -/

/-- A hit is a neighbour of the number that reads back. -/
theorem isSome_hit? (i : Interval) (k : ℤ) : (i.hit? k).isSome = true ↔
    let (num, den) := scaled i.value i.den k
    i.holds (num / den) k = true ∨ i.holds (num / den + 1) k = true := by
  unfold hit?
  dsimp only
  cases i.holds _ k <;> cases i.holds _ k <;> simp

theorem holds_of_hit? {i : Interval} {k : ℤ} {c : ℕ} (h : i.hit? k = some c) :
    i.holds c k = true := by
  unfold hit? at h
  dsimp only at h
  split at h
  · rename_i hbelow habove
    obtain rfl := Option.some.inj h
    split <;> assumption
  · rename_i hbelow habove
    obtain rfl := Option.some.inj h
    exact hbelow
  · rename_i hbelow habove
    obtain rfl := Option.some.inj h
    exact habove
  · cases h

/-- The search ends with a decimal of the interval, if one of its grids has a hit. -/
theorem holds_search {i : Interval} {fuel n : ℕ} {k : ℤ} (hn : n < fuel)
    (h : (i.hit? (k - n)).isSome = true) :
    i.holds (i.search fuel k).coefficient (i.search fuel k).exponent = true := by
  induction fuel generalizing n k with
  | zero => exact absurd hn (Nat.not_lt_zero n)
  | succ fuel ih =>
    rw [search]
    cases hhit : i.hit? k with
    | some c => exact holds_of_hit? hhit
    | none =>
      cases n with
      | zero => simp [hhit] at h
      | succ n =>
        refine ih (Nat.lt_of_succ_lt_succ hn) ?_
        rwa [sub_sub, add_comm, ← Nat.cast_succ]

end Interval

/-- A number over a grid is what it is, divided by the width of the grid. -/
theorem scaled_div (num den : ℕ) (k : ℤ) :
    ((scaled num den k).1 : ℚ) / (scaled num den k).2 = num / den / 10 ^ k := by
  unfold scaled
  split
  · rename_i hk
    lift k to ℕ using hk
    rw [Nat.pow_eq, Int.toNat_natCast, zpow_natCast]
    push_cast
    rw [div_div]
  · rename_i hk
    rw [zpow_eq_div, show k.toNat = 0 by omega, Nat.pow_eq]
    push_cast
    field_simp

theorem scaled_den_pos (num : ℕ) {den : ℕ} (hden : 0 < den) (k : ℤ) : 0 < (scaled num den k).2 := by
  unfold scaled
  split
  · exact Nat.mul_pos hden (Nat.pow_pos (by decide))
  · exact hden

section
variable {m : ℕ} {e : ℤ}

/-- **One of the two neighbours of a number on a grid of seventeen digits is rounded to it.** -/
theorem exists_neighbour (hm : Canonical m e) {unit : ℚ} {below : ℕ}
    (hfine : unit * 10 ^ 16 ≤ 4 * m * 2 ^ (e - 2)) (hlow : below * unit ≤ 4 * m * 2 ^ (e - 2))
    (hhigh : 4 * m * 2 ^ (e - 2) < (below + 1) * unit) :
    RoundsTo (below * unit) m e ∨ RoundsTo ((below + 1) * unit) m e := by
  have hquarter := two_zpow_pos (e - 2)
  generalize hq : (2 : ℚ) ^ (e - 2) = quarter at hfine hlow hhigh hquarter
  by_cases hleast : m = 2 ^ 52 ∧ -1074 < e
  · -- the grid is so fine that the neighbour above is always near enough
    have hone : quartersBelow m e = 1 := if_pos hleast
    rw [hleast.1] at hfine
    push_cast at hfine
    refine .inr (.of_lt ?_ ?_) <;> rw [hq]
    · rw [hone]
      push_cast
      linarith
    · linarith
  · have htwo : quartersBelow m e = 2 := if_neg hleast
    have hlt : (m : ℚ) < 2 ^ 53 := by exact_mod_cast hm.lt
    have hwidth : m * quarter < 2 ^ 53 * quarter := mul_lt_mul_of_pos_right hlt hquarter
    by_cases hnear : 4 * m * quarter - below * unit < 2 * quarter
    · refine .inl (.of_lt ?_ ?_) <;> rw [hq]
      · rw [htwo]
        push_cast
        linarith
      · linarith
    · refine .inr (.of_lt ?_ ?_) <;> rw [hq]
      · rw [htwo]
        push_cast
        linarith
      · linarith

theorem ofParts_value_div_den (m : ℕ) (e : ℤ) :
    ((Interval.ofParts m e).value : ℚ) / (Interval.ofParts m e).den = 4 * m * 2 ^ (e - 2) := by
  have hden : ((Interval.ofParts m e).den : ℚ) ≠ 0 := by
    exact_mod_cast (Nat.pow_pos two_pos).ne'
  rw [div_eq_iff hden, ← Nat.cast_ofNat, ← Nat.cast_mul]
  exact Interval.cast_mul_scale (4 * m) e

theorem isSome_hit?_ofParts (hm : Canonical m e) {k : ℤ}
    (hfine : (10 : ℚ) ^ k * 10 ^ 16 ≤ 4 * m * 2 ^ (e - 2)) :
    ((Interval.ofParts m e).hit? k).isSome = true := by
  have hden : 0 < (Interval.ofParts m e).den := Nat.pow_pos (by decide)
  have hscaled := scaled_div (Interval.ofParts m e).value (Interval.ofParts m e).den k
  have hpos := scaled_den_pos (Interval.ofParts m e).value hden k
  rw [ofParts_value_div_den] at hscaled
  rw [Interval.isSome_hit?]
  generalize scaled (Interval.ofParts m e).value (Interval.ofParts m e).den k = pair
    at hscaled hpos ⊢
  obtain ⟨num, den⟩ := pair
  dsimp only at hscaled hpos ⊢
  have hunit := ten_zpow_pos k
  have hpos' : (0 : ℚ) < den := by exact_mod_cast hpos
  have hlow : ((num / den : ℕ) : ℚ) ≤ num / den := Nat.cast_div_le
  have hhigh : (num : ℚ) / den < (num / den : ℕ) + 1 := by
    rw [div_lt_iff₀ hpos', mul_comm]
    exact_mod_cast Nat.lt_mul_div_succ num hpos
  rw [hscaled, le_div_iff₀ hunit] at hlow
  rw [hscaled, div_lt_iff₀ hunit] at hhigh
  rw [Interval.holds_iff, Interval.holds_iff, Interval.contains_ofParts_iff hm,
    Interval.contains_ofParts_iff hm, Nat.cast_succ]
  exact exists_neighbour hm hfine hlow hhigh

/-- **The search ends with a decimal that is rounded to the number.** -/
theorem roundsTo_search (hm : Canonical m e) {d : Decimal}
    (hd : (Interval.ofParts m e).search 18
      (magnitude (Interval.ofParts m e).value (Interval.ofParts m e).den + 1) = d) :
    RoundsTo d.value m e := by
  have hnum : 0 < (Interval.ofParts m e).value :=
    Nat.mul_pos (Nat.mul_pos (by decide) hm.pos) (Nat.pow_pos (by decide))
  have hden : 0 < (Interval.ofParts m e).den := Nat.pow_pos (by decide)
  have hmagnitude := ten_zpow_magnitude_le hnum hden
  rw [ofParts_value_div_den] at hmagnitude
  generalize magnitude (Interval.ofParts m e).value (Interval.ofParts m e).den = top
    at hd hmagnitude
  subst hd
  rw [value, ← Interval.contains_ofParts_iff hm, ← Interval.holds_iff]
  -- the last grid of the search is that of seventeen digits
  refine Interval.holds_search (n := 17) (by decide) (isSome_hit?_ofParts hm ?_)
  rwa [← zpow_natCast, ← zpow_add₀ (by norm_num), Nat.cast_ofNat, Nat.cast_ofNat,
    show top + 1 - 17 + 16 = top by omega]

end
end Decimal
end Formula
