import LuaLowering.Lower.Values

/-!
# Expressions

How each kind of expression is lowered, given the sources of its parts. All of
them leave the registers in use as they found them: what they take on the way
they give back.
-/

namespace LuaLowering

open LowerM

/-- The items of a table constructor that one `SETLIST` stores. -/
def batchSize : Nat := 50

/-- Reads a field of a table, which may be an upvalue. -/
def getField (line a : Nat) (table key : Operand) : LowerM Unit :=
  match table with
  | .upvalue u => Emit.getTabUp line a u key.field
  | other => Emit.getTable line a other.field key.field

/-- Loads what a name stands for: a local, an outer variable or a global. -/
def loadName (x : String) (a : Nat) : LowerM Unit := do
  let line ← currentLine
  match ← slotOf? x with
  | some r => Emit.move line a r
  | none =>
    match ← upvalueOf? x with
    | some u => Emit.getUpval line a u
    | none =>
      let env ← globalsOperand
      let mark ← usedRegisters
      let key ← operand (.string x) .registerOrConstant
      freeRegistersTo mark
      getField line a env key

/-- Loads a field of a table. -/
def loadIndex (table key : Source) (a : Nat) : LowerM Unit := do
  let line ← currentLine
  let mark ← usedRegisters
  let table ← operand table .registerOrUpvalue
  let key ← operand key .registerOrConstant
  freeRegistersTo mark
  getField line a table key

/-- Applies a unary operator. -/
def loadUnary (op : UnaryOp) (s : Source) (a : Nat) : LowerM Unit := do
  let line ← currentLine
  let mark ← usedRegisters
  let b ← operand s .register
  Emit.unary line op a b.field
  freeRegistersTo mark

/-- Applies `and` or `or`, which evaluate their right operand only when the
left one does not have the truth value `keep`. -/
def loadShortCircuit (keep : Nat) (left right : Source) (a : Nat) : LowerM Unit := do
  let line ← currentLine
  let mark ← usedRegisters
  let b ← operand left .register
  freeRegistersTo mark
  Emit.testSet line a b.field keep
  let skip ← Emit.jump line 0 0
  let c ← operand right .register
  freeRegistersTo mark
  Emit.move line a c.field
  aimJump skip (← here)

/-- Applies an operator that evaluates both operands. -/
def loadStrict (op : BinaryOp) (left right : Source) (a : Nat) : LowerM Unit := do
  let line ← currentLine
  let mark ← usedRegisters
  let b ← operand left .registerOrConstant
  let c ← operand right .registerOrConstant
  Emit.binary line op a b.field c.field
  freeRegistersTo mark

/-- Applies a binary operator. -/
def loadBinary (op : BinaryOp) (left right : Source) (a : Nat) : LowerM Unit :=
  match op with
  | .and => loadShortCircuit 0 left right a
  | .or => loadShortCircuit 1 left right a
  | op => loadStrict op left right a

/-- Concatenates values, which stand in a row of registers. -/
def loadConcat (operands : List Source) (a : Nat) : LowerM Unit := do
  let line ← currentLine
  let first ← usedRegisters
  loadEach 1 operands
  let last ← before (← usedRegisters) 1
  freeRegistersTo first
  Emit.plain line .concat a first last

/-! ## Table constructors -/

/-- A field of a table constructor with the sources of its parts. -/
inductive FieldSource where
  | item (value : Source)
  | entry (key value : Source)

def FieldSource.isItem : FieldSource → Bool
  | .item _ => true
  | .entry _ _ => false

/-- Stores the fields of a constructor in order, `done` of its `total` items
being loaded already. Items wait in registers until a batch is full or none is
left. -/
def storeFields (line a total : Nat) : List FieldSource → Nat → LowerM Unit
  | [], _ => pure ()
  | .item value :: rest, done => do
    let r ← takeRegister
    let spread := rest.isEmpty && value.exp.isMulti
    value.load r (if spread then allValues else 1)
    let done := done + 1
    if done % batchSize = 0 ∨ done = total then
      let n := if done % batchSize = 0 then batchSize else done % batchSize
      freeRegisters n
      Emit.setList line a (if spread then 0 else n) ((done - 1) / batchSize + 1)
    storeFields line a total rest done
  | .entry key value :: rest, done => do
    let mark ← usedRegisters
    let b ← operand key .registerOrConstant
    let c ← operand value .registerOrConstant
    freeRegistersTo mark
    Emit.setTable line a b.field c.field
    storeFields line a total rest done

/-- Makes a table. -/
def loadTable (fields : List FieldSource) (a : Nat) : LowerM Unit := do
  let line ← currentLine
  let items := (fields.filter (·.isItem)).length
  Emit.newTable line a items (fields.length - items)
  storeFields line a items fields 0

/-! ## Calls and functions -/

/-- Puts the receiver of a method call after the method, which replaces it in
`a`. -/
def loadMethod (line a : Nat) (method : String) : LowerM Unit := do
  let _ ← takeRegister
  let key ← operand (.string method) .registerOrConstant
  Emit.self line a a key.field
  match key with
  | .register _ => freeRegister
  | _ => pure ()

/-- Loads the method of a call and its receiver, if it is a method call. -/
def loadReceiver (line a : Nat) : Option String → LowerM Unit
  | some m => loadMethod line a m
  | none => pure ()

/-- Gives back the register of the receiver, if there is one. -/
def freeReceiver : Option String → LowerM Unit
  | some _ => freeRegister
  | none => pure ()

/-- Loads the function, the receiver and the arguments of a call from `a` on
and gives the number of arguments. -/
def layOutCall (callee : Source) (method : Option String) (args : List Source) (line : Nat)
    (a : Nat) : LowerM Int := do
  let outerLine ← currentLine
  setLine line
  callee.load a 1
  loadReceiver line a method
  let n ← loadAll args
  freeRegisters args.length
  freeReceiver method
  setLine outerLine
  pure (if n = allValues then allValues else if method.isSome then n + 1 else n)

/-- Calls what was prepared and keeps `want` results. -/
def finishCall (prepare : Nat → LowerM Int) (line a : Nat) (want : Int) : LowerM Unit := do
  let n ← prepare a
  Emit.call line a n want

/-- Calls what was prepared in place of the present function. -/
def finishTailCall (prepare : Nat → LowerM Int) (line a : Nat) : LowerM Unit := do
  let n ← prepare a
  Emit.tailCall line a n

/-- Writes what a function does: its parameters, its body and a bare return. -/
def writeBody (params : List String) (body : LowerM Unit) (lastLine : Nat) : LowerM Unit := do
  declareLocals 0 params
  body
  closeScope ((← here) + 1)
  Emit.ret lastLine 0 0

/-- Writes a function. -/
def writeFunction (params : List String) (isVararg : Bool) (line lastLine : Nat)
    (body : LowerM Unit) : LowerM Unit := do
  update fun d =>
    { d with
      line, lineDefined := line, lastLineDefined := lastLine
      paramCount := params.length, isVararg }
  writeBody params body lastLine

/-- Lowers a nested function and makes a closure of it. -/
def loadFunction (lastLine : Nat) (write : LowerM Unit) (a : Nat) : LowerM Unit := do
  let (inner, _) ← nested write
  let i ← view (·.nested.size)
  let p ← finishFunction inner
  update fun d => { d with nested := d.nested.push p }
  Emit.closure lastLine a i

end LuaLowering
