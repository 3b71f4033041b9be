import LuaLowering.Syntax

/-!
# Constants

The entries of a function's constant pool. Two constants share an entry when
they are of one kind and equal as Lua values of that kind, so the integer `1`
and the float `1.0` have entries of their own, and every NaN has.
-/

namespace LuaLowering

/-- An entry of a constant pool. -/
inductive Constant where
  | nil
  | boolean (value : Bool)
  | integer (value : Int64)
  | float (value : Binary64)
  | string (value : String)
deriving DecidableEq, Repr

/-- Whether two constants can share one entry of the pool. -/
def Constant.same : Constant → Constant → Bool
  | .nil, .nil => true
  | .boolean a, .boolean b => a == b
  | .integer a, .integer b => a == b
  | .float a, .float b => a.numEq b
  | .string a, .string b => a == b
  | _, _ => false

/-- The constant that a literal stands for. -/
def Expr.literal? : Expr → Option Constant
  | .nil => some .nil
  | .boolean b => some (.boolean b)
  | .integer n => some (.integer n)
  | .float x => some (.float x)
  | .string s => some (.string s)
  | _ => none

end LuaLowering
