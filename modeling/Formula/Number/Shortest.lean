import Formula.Number.Binary64

/-! # The fewest digits that read back

A positive binary number `m · 2 ^ e` is what every decimal in an interval around it rounds to; the
ends belong to the interval when `m` is even.  The shortest decimal of the number is sought on ever
finer decimal grids: on each, only the grid's two neighbours of the number can lie in the interval,
and the first grid with a hit gives the digits.  Of two hits the nearer is taken, and at equal
distance the greater.

All of this is arithmetic on natural numbers: `x / den` and the ends `low / den`, `high / den` of
the interval share one denominator.
-/
namespace Formula

/-- The number `coefficient · 10 ^ exponent`. -/
structure Decimal where
  coefficient : Nat
  exponent : Int
  deriving DecidableEq, Repr

namespace Decimal

/-- How many decimal digits a natural number has; zero has one. -/
def digitCount (n : Nat) : Nat := (Nat.toDigits 10 n).length

/-- The greatest `k` with `10 ^ k ≤ num / den`, for positive `num` and `den`. -/
def magnitude (num den : Nat) : Int :=
  if den ≤ num then (digitCount (num / den) : Int) - 1
  else -(digitCount ((den - 1) / num) : Int)

/-- `num / den` over the grid `10 ^ k`, as numerator and denominator. -/
def scaled (num den : Nat) (k : Int) : Nat × Nat :=
  if 0 ≤ k then (num, den * Nat.pow 10 k.toNat) else (num * Nat.pow 10 (-k).toNat, den)

/-- A number between the ends of the interval of the decimals that read back as it. -/
structure Interval where
  low : Nat
  value : Nat
  high : Nat
  /-- What all three are divided by. -/
  den : Nat
  /-- Whether the ends read back too. -/
  closed : Bool
  deriving Repr

namespace Interval

/-- The decimals that read back as `m · 2 ^ e`.  The distance to the next number below is half the
distance to the next one above where `m` is the least significand of its exponent. -/
def ofParts (m : Nat) (e : Int) : Interval :=
  let below := if m = Nat.pow 2 52 ∧ -1074 < e then 4 * m - 1 else 4 * m - 2
  let scale := Nat.pow 2 (e - 2).toNat
  ⟨below * scale, 4 * m * scale, (4 * m + 2) * scale, Nat.pow 2 (2 - e).toNat, m % 2 = 0⟩

/-- Whether `c · 10 ^ k` reads back. -/
def holds (i : Interval) (c : Nat) (k : Int) : Bool :=
  let (point, unit) :=
    if 0 ≤ k then (c * Nat.pow 10 k.toNat * i.den, 1) else (c * i.den, Nat.pow 10 (-k).toNat)
  let low := i.low * unit
  let high := i.high * unit
  if i.closed then low ≤ point && point ≤ high else low < point && point < high

/-- The neighbour of the value on the grid `10 ^ k` that reads back, the nearer one of two. -/
def hit? (i : Interval) (k : Int) : Option Nat :=
  let (num, den) := scaled i.value i.den k
  let below := num / den
  match i.holds below k, i.holds (below + 1) k with
  | true, true => some (if 2 * (num % den) < den then below else below + 1)
  | true, false => some below
  | false, true => some (below + 1)
  | false, false => none

/-- The first hit on the grids `10 ^ k`, `10 ^ (k - 1)`, …; `fuel` counts the grids. -/
def search (i : Interval) : Nat → Int → Decimal
  | 0, k => ⟨0, k⟩
  | fuel + 1, k =>
    match i.hit? k with
    | some c => ⟨c, k⟩
    | none => i.search fuel (k - 1)

end Interval

/-- The shortest decimal that reads back as the magnitude of a finite number other than zero.  The
first grid is the power of ten above the number, and seventeen digits always read back. -/
def shortest (x : Float) : Decimal :=
  let i := Interval.ofParts (Binary64.significand x) (Binary64.exponent x)
  i.search 18 (magnitude i.value i.den + 1)

/-- The magnitude of a finite number other than zero, with `digits` significant digits; a half goes
to the even neighbour. -/
def rounded (digits : Nat) (x : Float) : Decimal :=
  let i := Interval.ofParts (Binary64.significand x) (Binary64.exponent x)
  let k := magnitude i.value i.den - digits + 1
  let (num, den) := scaled i.value i.den k
  let below := num / den
  let rest := 2 * (num % den)
  let c := if rest < den || (rest = den && below % 2 = 0) then below else below + 1
  if digitCount c ≤ digits then ⟨c, k⟩ else ⟨c / 10, k + 1⟩

example : shortest 0.1 = ⟨1, -1⟩ ∧ shortest 5e-324 = ⟨5, -324⟩ ∧ shortest 1e23 = ⟨1, 23⟩ := by
  decide +kernel
example : rounded 2 0.125 = ⟨12, -2⟩ ∧ rounded 2 0.375 = ⟨38, -2⟩ := by decide +kernel

end Decimal
end Formula
