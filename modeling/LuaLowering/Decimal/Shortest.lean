import LuaLowering.Binary64

/-!
# The shortest decimal that reads back

Every binary number lies in an interval of reals that round to it, and any
decimal in that interval reads back as the number. `Decimal.shortest` takes
the one with the fewest digits, and of those the one nearest to the number.

The search goes from coarse to fine. On the grid of decimals with a given
number of digits only the two neighbours of the number matter: if any point of
the grid lies in the interval, so does one of these. All comparisons are
between natural numbers, so nothing is rounded on the way.
-/

namespace LuaLowering

/-- The positive decimal `digits * 10 ^ exponent`. -/
structure Decimal where
  digits : Nat
  exponent : Int
deriving DecidableEq, Repr

namespace Decimal

/-- The reals that round to a positive number, in quarters of the number's
last place: from `low` to `high` quarters around `mid`, where one quarter is
`2 ^ (power - 1076)`. -/
structure Rounding where
  low : Nat
  mid : Nat
  high : Nat
  power : Nat
  /-- Whether the two ends round to the number as well. -/
  closed : Bool

/-- The interval around a positive finite number. Below a power of two the
numbers lie twice as close, so the interval reaches only half as far down. Ends
round to the number with the even significand. -/
def Rounding.of (x : Binary64) : Rounding :=
  let m := x.significand
  let down := if x.fractionField = 0 ∧ 1 < x.exponentField then 1 else 2
  { low := 4 * m - down, mid := 4 * m, high := 4 * m + 2, power := x.scale, closed := m % 2 = 0 }

/-- Strips the final zeros of a digit string, at most `fuel` of them. -/
def trim : Nat → Nat → Int → Decimal
  | 0, digits, e => ⟨digits, e⟩
  | fuel + 1, digits, e => if digits % 10 = 0 then trim fuel (digits / 10) (e + 1) else ⟨digits, e⟩

/-- The decimal of the grid `10 ^ e` that rounds back and is nearest, if there
is one; of two equally near the larger. -/
def onGrid? (r : Rounding) (e : Int) : Option Decimal :=
  -- `scale * n` and `unit * d` compare `n` quarters with `d` grid steps
  let scale := Nat.pow 2 (r.power - 1076) * Nat.pow 10 (-e).toNat
  let unit := Nat.pow 2 (1076 - r.power) * Nat.pow 10 e.toNat
  let inside (d : Nat) : Bool :=
    if r.closed then scale * r.low ≤ unit * d ∧ unit * d ≤ scale * r.high
    else scale * r.low < unit * d ∧ unit * d < scale * r.high
  let below := scale * r.mid / unit
  let above := below + 1
  let nearer := if 2 * (scale * r.mid) < unit * (below + above) then below else above
  let further := if nearer = below then above else below
  if inside nearer then some (trim 20 nearer e)
  else if inside further then some (trim 20 further e)
  else none

/-- The number `k` with `10 ^ (k - 1) ≤ x < 10 ^ k` for the middle `x`. -/
def magnitude (r : Rounding) : Int :=
  let shifted := r.mid * Nat.pow 2 r.power * Nat.pow 10 360 / Nat.pow 2 1076
  (Nat.toDigits 10 shifted).length - 360

/-- The shortest decimal for a positive finite number. Seventeen digits always
suffice, so the last case is never reached. -/
def shortest (x : Binary64) : Decimal :=
  let r := Rounding.of x
  let k := magnitude r
  ((List.range 17).findSome? fun (n : Nat) => onGrid? r (k - (n + 1))).getD ⟨0, 0⟩

end Decimal

end LuaLowering
