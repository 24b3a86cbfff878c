import Formula.Number.Binary64

/-! # The gamma function

A product at whole numbers, Lanczos' sum elsewhere, Stirling's series above 85 and reflection
below one half.
-/
namespace Formula.Number

/-- The circle constant. -/
def pi : Float := 3.14159265358979323846264338327950288

/-- The base of the natural logarithm. -/
def euler : Float := 2.71828182845904523536028747135266250

/-- How far the sum is shifted. -/
def lanczosShift : Float := 4.7421875

/-- The constant term of the sum. -/
def lanczosConstant : Float := 0.99999999999999709182

/-- What is divided by `x`, `x + 1`, … in the sum. -/
def lanczosTerms : List Float :=
  [57.156235665862923517, -59.597960355475491248, 14.136097974741747174,
    -0.49191381609762019978, 0.33994649984811888699e-4, 0.46523628927048575665e-4,
    -0.98374475304879564677e-4, 0.15808870322491248884e-3, -0.21026444172410488319e-3,
    0.21743961811521264320e-3, -0.16431810653676389022e-3, 0.84418223983852743293e-4,
    -0.26190838401581408670e-4, 0.36899182659531622704e-5]

/-- `(n - 1)!` for a whole `n` from one to 171, multiplied from the largest factor down. -/
def wholeGamma (n : Nat) : Float :=
  let factors := (List.range (n - 3)).map fun i => Binary64.ofNat (n - 2 - i)
  if n = 1 then 1.0 else factors.foldl (· * ·) (Binary64.ofNat (n - 1))

/-- Lanczos' sum, for `x` of at least one half. -/
def lanczosGamma (x : Float) : Float :=
  let n := x - 1.0
  let sum := lanczosTerms.foldl
    (fun (sum, i) p => (sum + p / (n + i), i + 1.0)) (lanczosConstant, 1.0)
  let t := n + lanczosShift + 0.5
  (2.0 * pi).sqrt * t.pow (n + 0.5) * (-t).exp * sum.1

/-- Stirling's series, for large `n`. -/
def stirlingGamma (n : Float) : Float :=
  let n2 := n * n
  let n3 := n2 * n
  let n4 := n3 * n
  let n5 := n4 * n
  (2.0 * pi / n).sqrt * (n / euler).pow n
    * (1.0 + 1.0 / (12.0 * n) + 1.0 / (288.0 * n2) - 139.0 / (51840.0 * n3)
      - 571.0 / (2488320.0 * n4) + 163879.0 / (209018880.0 * n5)
      + 5246819.0 / (75246796800.0 * n5 * n))

/-- The gamma function at a number that is not below one half. -/
def upperGamma (n : Float) : Float :=
  if Binary64.isWhole n then
    if n > 171.0 then Binary64.infinity else wholeGamma (Binary64.wholePart n)
  else if n ≥ 171.35 then Binary64.infinity
  else if n > 85.0 then stirlingGamma n
  else lanczosGamma n

/-- The gamma function.  It is infinite at zero and at the negative whole numbers. -/
def gamma (n : Float) : Float :=
  if n.isNaN then Binary64.nan
  else if n < 0.5 then
    if Binary64.isWhole n then Binary64.infinity
    else pi / ((pi * n).sin * upperGamma (1.0 - n))
  else upperGamma n

/-- The factorial, continued to all numbers. -/
def factorial (n : Float) : Float := gamma (n + 1.0)

example : wholeGamma 1 = 1.0 ∧ wholeGamma 2 = 1.0 ∧ wholeGamma 6 = 120.0 := by decide +kernel

end Formula.Number
