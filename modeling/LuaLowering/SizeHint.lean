import LuaLowering.Word

/-!
# Table size hints

`NEWTABLE` carries the expected sizes of the new table in one byte each, as a
small floating-point number: three bits of mantissa and five of exponent, with
sizes below eight written as they are. A size that has no exact form is
rounded up, so the hint never asks for too little.

The mantissa is found by dividing the size by two, rounding up, until it is
below sixteen. A large size is first divided by sixteen as often as that leaves
eight or more, which saves halvings.
-/

namespace LuaLowering

namespace SizeHint

/-- Divides `m` by two `bits` times at once, rounding up, as long as that leaves
eight or more, and counts the bits on top of `e`. What is divided has to be a
word. -/
def shrink (bits : Nat) (pos : 0 < bits) (m e : Nat) : Option (Nat × Nat) :=
  if m < 8 * Nat.pow 2 bits then some (m, e)
  else if Word.fits (m + (Nat.pow 2 bits - 1)) then
    shrink bits pos ((m + (Nat.pow 2 bits - 1)) / Nat.pow 2 bits) (e + bits)
  else none
termination_by m
decreasing_by
  rename_i hlarge _
  have htwo : 2 ≤ Nat.pow 2 bits := Nat.pow_le_pow_right (n := 2) (by decide) pos
  have hmul : m * 2 ≤ m * Nat.pow 2 bits := Nat.mul_le_mul_left m htwo
  rw [Nat.div_lt_iff_lt_mul (by omega)]
  omega

/-- The byte whose size is the least one that is at least `n`, where `n` may be
any word. There is none if a word is too small for the rounding. -/
def encode? (n : Nat) : Option Nat :=
  if n < 8 then some n
  else do
    let (m, e) ← shrink 4 (by decide) n 0
    let (mantissa, exponent) ← shrink 1 (by decide) m e
    some ((exponent + 1) * 8 + (mantissa - 8))

/-- The size a byte stands for. -/
def decode (x : Nat) : Nat :=
  if x < 8 then x else (x % 8 + 8) * Nat.pow 2 (x / 8 - 1)

end SizeHint

end LuaLowering
