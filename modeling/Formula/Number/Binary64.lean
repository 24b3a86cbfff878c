/-! # Binary numbers, exactly

A finite number is `± significand · 2 ^ exponent`.  This module reads these parts off the 64 bits,
puts them together again, and defines the operations whose results are exact: cutting off the
fraction, the whole numbers below and above, and the remainder of a truncated division.
-/
namespace Formula.Binary64

/-- The number that is no number. -/
def nan : Float := 0.0 / 0.0

/-- The number above all numbers. -/
def infinity : Float := 1.0 / 0.0

/-- Whether the sign bit is set. -/
def isNegative (x : Float) : Bool := x.toBits.toNat / Nat.pow 2 63 = 1

/-- The eleven bits between sign and fraction. -/
def exponentField (x : Float) : Nat := x.toBits.toNat / Nat.pow 2 52 % Nat.pow 2 11

/-- The lowest 52 bits. -/
def fractionField (x : Float) : Nat := x.toBits.toNat % Nat.pow 2 52

/-- Whether `x` is neither infinite nor `nan`. -/
def isFinite (x : Float) : Bool := exponentField x < 2047

/-- The whole number that a finite number is a power of two away from. -/
def significand (x : Float) : Nat :=
  if exponentField x = 0 then fractionField x else fractionField x + Nat.pow 2 52

/-- The power of two that goes with `significand`. -/
def exponent (x : Float) : Int :=
  if exponentField x = 0 then -1074 else exponentField x - 1075

/-- A sign and a magnitude. -/
def signed (negative : Bool) (magnitude : Float) : Float :=
  if negative then -magnitude else magnitude

/-- The number `± m · 2 ^ e`, for an `m` below `2 ^ 53` where the number is one of the format. -/
def ofParts (negative : Bool) (m : Nat) (e : Int) : Float :=
  if m = 0 then signed negative 0.0
  else
    let top := e + m.log2
    let bits :=
      if -1022 ≤ top then
        (top + 1023).toNat * Nat.pow 2 52 + (m * Nat.pow 2 (52 - m.log2) - Nat.pow 2 52)
      else m * Nat.pow 2 (e + 1074).toNat
    signed negative (Float.ofBits (UInt64.ofNat bits))

/-- The number without its fraction; sign, infinities and `nan` stay. -/
def truncate (x : Float) : Float :=
  if isFinite x && exponent x < 0 then
    ofParts (isNegative x) (significand x / Nat.pow 2 (-exponent x).toNat) 0
  else x

/-- Whether a number is finite and has no fraction. -/
def isWhole (x : Float) : Bool := isFinite x && truncate x == x

/-- The magnitude of a number without its fraction. -/
def wholePart (x : Float) : Nat :=
  if exponent x < 0 then significand x / Nat.pow 2 (-exponent x).toNat
  else significand x * Nat.pow 2 (exponent x).toNat

/-- The greatest whole number that is not above `x`. -/
def floor (x : Float) : Float :=
  let cut := truncate x
  if x < cut then cut - 1.0 else cut

/-- The least whole number that is not below `x`. -/
def ceiling (x : Float) : Float :=
  let cut := truncate x
  if cut < x then cut + 1.0 else cut

/-- The whole number nearest to `x`; of two the greater. -/
def round (x : Float) : Float :=
  let below := floor x
  if x - below ≥ 0.5 then below + 1.0 else below

/-- One with the sign of `x`; zeros and `nan` stay. -/
def sign (x : Float) : Float :=
  if x == 0.0 || x.isNaN then x else signed (isNegative x) 1.0

/-- What truncated division of `x` by `y` leaves, with the sign of `x` and without rounding. -/
def remainder (x y : Float) : Float :=
  if !isFinite x || y.isNaN || y == 0.0 then nan
  else if !isFinite y then x
  else
    let e := min (exponent x) (exponent y)
    let a := significand x * Nat.pow 2 (exponent x - e).toNat
    let b := significand y * Nat.pow 2 (exponent y - e).toNat
    ofParts (isNegative x) (a % b) e

/-- The number nearest to a natural number. -/
def ofNat (n : Nat) : Float := Float.ofScientific n false 0

example : floor (-0.5) = -1.0 ∧ ceiling (-0.5) = -0.0 ∧ round (-2.5) = -2.0 := by decide +kernel
example : remainder (-7.0) 3.0 = -1.0 ∧ remainder 5.5 0.3 = 0.1000000000000002 := by decide +kernel

end Formula.Binary64
