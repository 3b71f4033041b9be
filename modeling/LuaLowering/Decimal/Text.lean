import LuaLowering.Decimal.Shortest

/-!
# Floats as text

How a listing writes a float constant: the shortest digits that read back,
with at least one place after the point when they are written positionally,
and with an exponent when the number is very large or very small. The text of
a float always tells it from an integer.
-/

namespace LuaLowering

namespace Decimal

/-- Numbers from `10 ^ (leastPoint - 1)` up to, but not including,
`10 ^ greatestPoint` are written positionally. -/
def leastPoint : Int := -3

@[inherit_doc leastPoint]
def greatestPoint : Int := 16

/-- The text of a positive decimal. With `point` digits before the point, the
number is `0.d₁d₂… * 10 ^ point`. -/
def text (d : Decimal) : String :=
  let digits := Nat.toDigits 10 d.digits
  let point := d.exponent + digits.length
  if leastPoint ≤ point ∧ point ≤ greatestPoint then
    let whole := digits.take point.toNat ++ List.replicate (point.toNat - digits.length) '0'
    let places := List.replicate (-point).toNat '0' ++ digits.drop point.toNat
    String.ofList ((if whole.isEmpty then ['0'] else whole) ++ '.' ::
      (if places.isEmpty then ['0'] else places))
  else
    let places := digits.drop 1
    String.ofList (digits.take 1 ++ (if places.isEmpty then [] else '.' :: places)) ++
      "e" ++ (point - 1).repr

end Decimal

/-- The text of a float in a listing. -/
def Binary64.text (x : Binary64) : String :=
  if x.isNaN then "NaN"
  else
    let magnitude :=
      if x.isInfinite then "inf" else if x.isZero then "0.0" else (Decimal.shortest x).text
    if x.isNegative then "-" ++ magnitude else magnitude

end LuaLowering
