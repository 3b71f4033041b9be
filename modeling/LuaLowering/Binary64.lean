/-!
# Binary floating-point numbers

A float constant is carried from the source to the constant pool and never
computed with, so all that is needed is its 64 bits: the fields that a printer
reads and the comparison that finds a constant already in the pool.
-/

namespace LuaLowering

/-- A double-precision number, given by its bit pattern. -/
structure Binary64 where
  bits : UInt64
deriving DecidableEq, Repr

namespace Binary64

/-- The sign bit. -/
def isNegative (x : Binary64) : Bool := x.bits.toNat / 0x8000000000000000 = 1

/-- The eleven bits of the biased exponent. -/
def exponentField (x : Binary64) : Nat := x.bits.toNat / 0x10000000000000 % 0x800

/-- The fifty-two bits of the fraction. -/
def fractionField (x : Binary64) : Nat := x.bits.toNat % 0x10000000000000

def isNaN (x : Binary64) : Bool := x.exponentField = 2047 ∧ x.fractionField ≠ 0

def isInfinite (x : Binary64) : Bool := x.exponentField = 2047 ∧ x.fractionField = 0

/-- Either of the two zeros. -/
def isZero (x : Binary64) : Bool := x.bits.toNat % 0x8000000000000000 = 0

/-- The magnitude of a finite number is `significand * 2 ^ (scale - 1074)`. -/
def significand (x : Binary64) : Nat :=
  if x.exponentField = 0 then x.fractionField else x.fractionField + 0x10000000000000

@[inherit_doc significand]
def scale (x : Binary64) : Nat := x.exponentField - 1

/-- Numeric equality: a NaN equals nothing and the two zeros are equal. -/
def numEq (x y : Binary64) : Bool :=
  !x.isNaN && !y.isNaN && (x.bits == y.bits || x.isZero && y.isZero)

end Binary64

end LuaLowering
