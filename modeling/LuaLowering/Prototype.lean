import LuaLowering.Constant
import LuaLowering.Instruction

/-!
# Function prototypes

The finished form of one function: its code, its constants, the functions
nested in it and the tables a debugger reads. Nothing in a prototype changes
any more. What an instruction or a position addresses is in arrays; the rest is
in lists.
-/

namespace LuaLowering

/-- Where a closure finds one of its outer variables when it is made. -/
structure Upvalue where
  /-- In a register of the enclosing function, rather than among its own
  upvalues. -/
  inStack : Bool
  index : UInt8
  /-- The variable's name; empty when stripped. -/
  name : String
deriving DecidableEq, Repr

/-- A local variable of the debug table: it lives in register `slot` at the
instructions from `startPc` up to, but not at, `endPc`. -/
structure LocalEntry where
  name : String
  slot : Nat
  startPc : Nat
  endPc : Nat
deriving DecidableEq, Repr

/-- A compiled function. -/
structure Prototype where
  source : String
  lineDefined : Nat
  lastLineDefined : Nat
  numParams : UInt8
  isVararg : Bool
  /-- The frame size: the most registers ever live, and at least two. -/
  maxStackSize : UInt8
  code : Array Instruction
  constants : Array Constant
  upvalues : List Upvalue
  protos : List Prototype
  /-- The source line of each instruction; empty when stripped. -/
  lines : Array Nat
  /-- The locals in the order of their declarations; empty when stripped. -/
  locals : List LocalEntry

/-- The source line of the instruction at `pc`, zero when it is not known. -/
def Prototype.lineOf (p : Prototype) (pc : Nat) : Nat := p.lines[pc]?.getD 0

mutual

/-- A function and all those nested in it, each before those nested in it. -/
def Prototype.family (p : Prototype) : List Prototype :=
  match p with
  | ⟨source, first, last, params, more, slots, code, constants, upvalues, protos, lines, locals⟩ =>
    ⟨source, first, last, params, more, slots, code, constants, upvalues, protos, lines, locals⟩ ::
      Prototype.families protos

/-- The functions of a list and all those nested in them. -/
def Prototype.families : List Prototype → List Prototype
  | [] => []
  | p :: rest => p.family ++ Prototype.families rest

end

end LuaLowering
