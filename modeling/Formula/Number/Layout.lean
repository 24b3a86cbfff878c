import Formula.Number.Shortest

/-! # Number text

How numbers are written: in results and canonical text, in messages, and with a fixed number of
significant digits.
-/
namespace Formula

namespace Decimal

/-- The digits of the coefficient, the first one first. -/
def digits (d : Decimal) : List Char := Nat.toDigits 10 d.coefficient

/-- The power of ten of the first digit. -/
def leading (d : Decimal) : Int := d.digits.length - 1 + d.exponent

/-- Digits with a point at its place and no exponent. -/
def plain (d : Decimal) : String :=
  let point : Int := d.leading + 1
  String.ofList <|
    if 0 ≤ d.exponent then d.digits ++ List.replicate d.exponent.toNat '0'
    else if 0 < point then d.digits.take point.toNat ++ '.' :: d.digits.drop point.toNat
    else '0' :: '.' :: List.replicate (-point).toNat '0' ++ d.digits

/-- One digit, a point and the other digits if there are any, and the power of ten of the first;
`plus` stands before a power that is not negative. -/
def scientific (plus : String) (d : Decimal) : String :=
  let mantissa := match d.digits with
    | first :: second :: rest => first :: '.' :: second :: rest
    | short => short
  let power := if d.leading < 0 then "-" ++ toString (-d.leading).toNat
    else plus ++ toString d.leading.toNat
  String.ofList mantissa ++ "e" ++ power

end Decimal

namespace Number

/-- A minus sign before the text of a magnitude below zero. -/
def withSign (x : Float) (magnitude : String) : String :=
  if Binary64.isNegative x then "-" ++ magnitude else magnitude

/-- The text of a number in results and canonical text: the fewest digits that read back, without
an exponent from `1e-6` up to but not including `1e21`.  The sign of zero is not shown. -/
def text (x : Float) : String :=
  if x.isNaN then "NaN"
  else if !Binary64.isFinite x then withSign x "Infinity"
  else if x == 0.0 then "0"
  else
    let d := Decimal.shortest x
    withSign x (if 1e-6 ≤ x.abs ∧ x.abs < 1e21 then d.plain else d.scientific "+")

/-- The text of a number inside messages: never with an exponent. -/
def messageText (x : Float) : String :=
  if x.isNaN then "NaN"
  else if !Binary64.isFinite x then withSign x "inf"
  else if x == 0.0 then withSign x "0"
  else withSign x (Decimal.shortest x).plain

/-- The text of a number with `digits` significant digits and an exponent.  Zero, infinities and
`NaN` have no such form and keep their own. -/
def significantText (digits : Nat) (x : Float) : String :=
  if !Binary64.isFinite x || x == 0.0 then text x
  else withSign x ((Decimal.rounded digits x).scientific "")

example : text 0.1 = "0.1" ∧ text 1e21 = "1e+21"
    ∧ text 123456789012345680000.0 = "123456789012345680000"
    ∧ text (-1.5e-7) = "-1.5e-7" ∧ text (-0.0) = "0" := by decide +kernel
example : messageText 1e21 = "1000000000000000000000" ∧ messageText (-0.0) = "-0" := by
  decide +kernel
example : significantText 12 0.8414709848078965 = "8.41470984808e-1" := by decide +kernel

end Number
end Formula
