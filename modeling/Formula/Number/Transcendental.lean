import Formula.Number.Binary64

/-! # Logarithm and exponential near zero

Logarithm and exponential lose all digits of an argument near zero when one is added to it first or
taken away from the result.  `log1p` and `expm1` keep them: both divide out the rounding error of
the sum.  Where one makes no difference, or the sum is infinite, there is no error to divide out.

The inverse hyperbolic tangent is one logarithm of a quotient, and as exact as the quotient: close
to minus one that is a multiple of the spacing of numbers below one.
-/
namespace Formula.Number

/-- `log (1 + x)`.  It is minus infinity at minus one and `NaN` below. -/
def log1p (x : Float) : Float :=
  let sum := 1.0 + x
  if sum == 1.0 then x
  else if !Binary64.isFinite sum then sum.log
  else sum.log * (x / (sum - 1.0))

/-- `exp x - 1`.  It is minus one at minus infinity. -/
def expm1 (x : Float) : Float :=
  let power := x.exp
  if power == 1.0 then x
  else
    let less := power - 1.0
    if less == -1.0 || !Binary64.isFinite power then less else less * (x / power.log)

/-- Inverse hyperbolic tangent, infinite at one and minus one and `NaN` beyond. -/
def atanh (x : Float) : Float := 0.5 * log1p (2.0 * x / (1.0 - x))

end Formula.Number
