import LuaLowering.Emit

/-!
# Operands

An instruction can often read a value where it already is: a local in its
register, a literal in the constant pool, an outer variable among the
upvalues. `operand` takes a value from there when the instruction allows it,
and loads it into a fresh register when not.

Lowering an expression needs its parts both as syntax, to see what they are,
and as something that can be loaded. A `Source` is the two together. The
functions that lower a construct take sources, and none of them is recursive
over the syntax; the recursion is in one place and only builds sources.
-/

namespace LuaLowering

open LowerM

/-- An expression and the step that loads it: `load a want` puts `want` of its
values into the registers from `a` on. Only a call or `...` has other than one
value. -/
structure Source where
  exp : Expr
  load : Nat → Int → LowerM Unit

/-- Where an operand's value is found. -/
inductive Operand where
  | register (r : Nat)
  | constant (k : Nat)
  | upvalue (u : Nat)
deriving DecidableEq, Repr

/-- The instruction field of an operand. -/
def Operand.field : Operand → Nat
  | register r => r
  | constant k => Instruction.constantField k
  | upvalue u => u

/-- The kinds of operand that an instruction can read. -/
structure OperandKinds where
  constants : Bool := false
  registers : Bool := false
  upvalues : Bool := false
deriving DecidableEq, Repr

namespace OperandKinds

def constant : OperandKinds := { constants := true }

def register : OperandKinds := { registers := true }

def upvalue : OperandKinds := { upvalues := true }

def registerOrConstant : OperandKinds := { constants := true, registers := true }

def registerOrUpvalue : OperandKinds := { registers := true, upvalues := true }

end OperandKinds

/-- A literal as an operand, if it is one whose constant can be reached. -/
def constantOperand? (e : Expr) : LowerM (Option Operand) := do
  match e.literal? with
  | none => pure none
  | some k =>
    let i ← constantIndex k
    pure (if i ≤ (← options).constantLimit then some (.constant i) else none)

/-- A name as an operand, if it is a local or an outer variable of an accepted
kind. -/
def nameOperand? (e : Expr) (kinds : OperandKinds) : LowerM (Option Operand) := do
  match e with
  | .name x =>
    match ← (if kinds.registers then slotOf? x else pure none) with
    | some r => pure (some (.register r))
    | none =>
      match ← (if kinds.upvalues then upvalueOf? x else pure none) with
      | some u => pure (some (.upvalue u))
      | none => pure none
  | _ => pure none

/-- An expression as an operand of one of the accepted kinds. A fresh register
is always accepted, and is taken when nothing else will do. -/
def operand (s : Source) (kinds : OperandKinds) : LowerM Operand := do
  match ← (if kinds.constants then constantOperand? s.exp else pure none) with
  | some o => pure o
  | none =>
    match ← nameOperand? s.exp kinds with
    | some o => pure o
    | none =>
      let r ← takeRegister
      s.load r 1
      pure (.register r)

/-- A constant as a source. -/
def Source.constant (e : Expr) (k : Constant) : Source :=
  ⟨e, fun a _ => do Emit.loadConstant (← currentLine) a k⟩

/-- A string as a source. -/
def Source.string (s : String) : Source := .constant (.string s) (.string s)

/-- Where the globals are: in the local `_ENV`, or else in the outer variable
of that name. -/
def globalsOperand : LowerM Operand := do
  match ← slotOf? "_ENV" with
  | some r => pure (.register r)
  | none =>
    match ← upvalueOf? "_ENV" with
    | some u => pure (.upvalue u)
    | none => reject (.noGlobals (← currentLine))

end LuaLowering
