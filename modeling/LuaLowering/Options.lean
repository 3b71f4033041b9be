/-!
# Options of a compilation

The limits the lowering consults and what it leaves out of its output. The
defaults are those of the stock Lua 5.3 machine.

The setters clamp a limit to what an instruction field can hold. The fields
themselves do not: a caller who sets a larger limit directly gets operands cut
to the width of their fields.
-/

namespace LuaLowering

/-- The most registers one call frame of the machine can hold. -/
def frameRegisters : Nat := 255

/-- The largest constant index an operand that may also be a register can
hold. -/
def operandConstants : Nat := 255

/-- What a compilation may use and what it records. -/
structure Options where
  /-- The source name recorded in the main prototype. -/
  chunkName : String := "=?"
  /-- The most registers that may be live at once in one function. -/
  registerLimit : Nat := frameRegisters
  /-- The largest constant index used directly as an operand. A constant
  beyond it is loaded into a register first. -/
  constantLimit : Nat := operandConstants
  /-- Leave out line tables, local names and upvalue names. -/
  strip : Bool := false
deriving DecidableEq, Repr

namespace Options

def withChunkName (o : Options) (name : String) : Options :=
  { o with chunkName := name }

/-- Sets the register limit, at most a whole frame. -/
def withRegisterLimit (o : Options) (limit : Nat) : Options :=
  { o with registerLimit := min limit frameRegisters }

/-- Sets the largest constant index used as an operand, at most what the
operand field holds. -/
def withConstantLimit (o : Options) (limit : Nat) : Options :=
  { o with constantLimit := min limit operandConstants }

def withStrip (o : Options) (strip : Bool) : Options :=
  { o with strip := strip }

theorem withRegisterLimit_le (o : Options) (limit : Nat) :
    (o.withRegisterLimit limit).registerLimit ≤ frameRegisters :=
  Nat.min_le_right _ _

theorem withConstantLimit_le (o : Options) (limit : Nat) :
    (o.withConstantLimit limit).constantLimit ≤ operandConstants :=
  Nat.min_le_right _ _

end Options

end LuaLowering
