import LuaLowering.Constant

/-!
# Values of the first-order fragment

The values that code without tables, floats and functions computes with. The
machine and the meaning of the source share them, and share what an operator
gives, so a proof that relates the two never has to look at arithmetic.

How a sum that leaves the range of integers behaves is left open: it may wrap
around or have no value. All that a loop needs is that adding a step undoes
subtracting it.
-/

namespace LuaLowering

inductive Value where
  | nil
  | boolean (b : Bool)
  | integer (n : Int64)
  | string (s : String)
deriving DecidableEq, Repr

namespace Value

def truthy : Value → Bool
  | nil => false
  | boolean b => b
  | _ => true

def integer? : Value → Option Int64
  | integer n => some n
  | _ => none

def string? : Value → Option String
  | string s => some s
  | _ => none

/-- The value of a constant. A float has none in this fragment. -/
def ofConstant? : Constant → Option Value
  | .nil => some nil
  | .boolean b => some (boolean b)
  | .integer n => some (integer n)
  | .string s => some (string s)
  | .float _ => none

end Value

/-- The globals. One that was never assigned reads as nil. -/
abbrev Globals := String → Option Value

def Globals.read (g : Globals) (x : String) : Value := (g x).getD .nil

def Globals.write (g : Globals) (x : String) (v : Value) : Globals :=
  fun y => if y = x then some v else g y

/-- What addition and subtraction of integers give, if anything. -/
structure Arithmetic where
  add : Int64 → Int64 → Option Int64
  sub : Int64 → Int64 → Option Int64
  add_of_sub : ∀ {n step start : Int64}, sub n step = some start → add start step = some n

namespace Arithmetic

/-- Arithmetic that wraps around. -/
def wrapping : Arithmetic where
  add m n := some (m + n)
  sub m n := some (m - n)
  add_of_sub := by
    intro n step start h
    obtain rfl := Option.some.inj h
    rw [Int64.sub_add_cancel]

end Arithmetic

/-- Whether a counter that moves by a step is within a limit. -/
def withinLimit (counter limit step : Int64) : Bool :=
  (0 < step && counter ≤ limit) || (step < 0 && limit ≤ counter)

/-- The order of the comparison operators, on integers only. -/
def Value.compare? (rel : Int64 → Int64 → Bool) (v u : Value) : Option Value := do
  let m ← v.integer?
  let n ← u.integer?
  pure (.boolean (rel m n))

/-- What an operator gives that evaluates both its operands. -/
def BinaryOp.result? (A : Arithmetic) : BinaryOp → Value → Value → Option Value
  | .add, v, u => do pure (.integer (← A.add (← v.integer?) (← u.integer?)))
  | .sub, v, u => do pure (.integer (← A.sub (← v.integer?) (← u.integer?)))
  | .eq, v, u => some (.boolean (v = u))
  | .ne, v, u => some (.boolean (v ≠ u))
  | .lt, v, u => Value.compare? (· < ·) v u
  | .le, v, u => Value.compare? (· ≤ ·) v u
  | .gt, v, u => Value.compare? (· < ·) u v
  | .ge, v, u => Value.compare? (· ≤ ·) u v
  | _, _, _ => none

end LuaLowering
