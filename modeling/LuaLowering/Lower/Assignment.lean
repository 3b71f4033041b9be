import LuaLowering.Lower.Expression

/-!
# Declarations and assignments

An assignment first settles where each of its targets is, then evaluates its
values, and only then stores. What a target's table and key are is thus decided
before any store of the same statement.
-/

namespace LuaLowering

open LowerM

/-- Declares locals, with the values of a list. -/
def lowerDeclare (names : List String) (values : List Source) (line : Nat) : LowerM Unit := do
  setLine line
  let mark ← usedRegisters
  loadAdjusted names.length values line
  freeRegistersTo mark
  declareLocals (← here) names

/-- The left-hand side of an assignment with the sources of its parts. -/
inductive TargetSource where
  | name (x : String)
  | index (table key : Source)

/-- Where a store goes. -/
inductive Address where
  | register (r : Nat)
  | upvalue (u : Nat)
  /-- A global; its name is in the register `key` when the constant cannot be
  reached by an operand. -/
  | global (env : Operand) (name : String) (key : Option Nat)
  /-- A field of the table in one register, its key in another. -/
  | field (table key : Nat)
deriving DecidableEq, Repr

/-- Settles where a global is stored. -/
def globalAddress (x : String) (line : Nat) : LowerM Address := do
  let env ← globalsOperand
  let i ← constantIndex (.string x)
  if (← options).constantLimit < i then
    let r ← takeRegister
    Emit.loadConstant line r (.string x)
    pure (.global env x (some r))
  else
    pure (.global env x none)

/-- Settles where a target is. The table and the key of a field are loaded into
registers of their own. -/
def addressOf (line : Nat) : TargetSource → LowerM Address
  | .index table key => do
    let t ← takeRegister
    table.load t 1
    let k ← takeRegister
    key.load k 1
    pure (.field t k)
  | .name x => do
    match ← slotOf? x with
    | some r => pure (.register r)
    | none =>
      match ← upvalueOf? x with
      | some u => pure (.upvalue u)
      | none => globalAddress x line

/-- Settles where the targets are, from left to right. -/
def addressesOf (line : Nat) : List TargetSource → LowerM (List Address)
  | [] => pure []
  | t :: rest => do
    let address ← addressOf line t
    let addresses ← addressesOf line rest
    pure (address :: addresses)

/-- The field for the name of a global. -/
def globalKey (x : String) : Option Nat → LowerM Nat
  | some r => pure r
  | none => do pure (Operand.constant (← constantIndex (.string x))).field

/-- Stores the value in a register. -/
def store (line value : Nat) : Address → LowerM Unit
  | .register r => Emit.move line r value
  | .upvalue u => Emit.setUpval line value u
  | .field table key => Emit.setTable line table key value
  | .global env x key => do
    let key ← globalKey x key
    match env with
    | .upvalue u => Emit.setTabUp line u key value
    | other => Emit.setTable line other.field key value

/-- Stores the values in the registers from `value` on. -/
def storeAll (line : Nat) : List Address → Nat → LowerM Unit
  | [], _ => pure ()
  | address :: rest, value => do
    store line value address
    storeAll line rest (value + 1)

/-- Lowers an assignment. -/
def lowerAssign (targets : List TargetSource) (values : List Source) (line : Nat) :
    LowerM Unit := do
  setLine line
  let mark ← usedRegisters
  let addresses ← addressesOf line targets
  let first ← usedRegisters
  loadAdjusted targets.length values line
  storeAll line addresses first
  freeRegistersTo mark

end LuaLowering
