import LuaLowering.Capture
import LuaLowering.Workspace

/-!
# Building a function

The steps that lowering is made of: taking and freeing registers, entering and
leaving scopes, declaring and resolving names, and writing and patching code.

Each step states when it fails. A failure that a chunk can bring about is a
`Rejection` at the current line; the rest is `Misuse`.
-/

namespace LuaLowering

open LowerM

/-! ## Lines and positions -/

/-- The line of the construct being lowered. -/
def currentLine : LowerM Nat := view (·.line)

def setLine (line : Nat) : LowerM Unit := update ({ · with line })

/-- The position of the next instruction. -/
def here : LowerM Nat := view (·.pc)

/-- The place `back` before `value`. -/
def before (value back : Nat) : LowerM Nat :=
  if back ≤ value then pure (value - back) else misuse (.beforeZero value back)

/-! ## Registers -/

/-- The number of live registers, which is also the next free one. -/
def usedRegisters : LowerM Nat := view (·.registers.used)

/-- Keeps the registers that were taken and gives the first. -/
def keepTaken (taken : Option (Nat × Registers)) : LowerM Nat := do
  match taken with
  | some (first, registers) =>
    update ({ · with registers })
    pure first
  | none => reject (.registersExhausted (← view (·.registers.limit)) (← currentLine))

/-- Takes `n` registers in a row and gives the first. -/
def takeRegisters (n : Nat) : LowerM Nat := do
  match (← view (·.registers)).takeRun n with
  | .ok taken => keepTaken taken
  | .error m => misuse m

/-- Takes the next register. -/
def takeRegister : LowerM Nat := do keepTaken (← view (·.registers)).take?

/-- Applies an operation that gives registers back. -/
def giveBack (f : Registers → Except Misuse Registers) : LowerM Unit := do
  match f (← view (·.registers)) with
  | .ok registers => update ({ · with registers })
  | .error m => misuse m

/-- Gives back the topmost `n` registers. -/
def freeRegisters (n : Nat) : LowerM Unit := giveBack (·.free n)

/-- Gives back the topmost register. -/
def freeRegister : LowerM Unit := freeRegisters 1

/-- Gives back all registers from `mark` upwards. -/
def freeRegistersTo (mark : Nat) : LowerM Unit := giveBack (·.freeTo mark)

/-! ## Code -/

/-- Appends an instruction and gives its position. -/
def emit (line : Nat) (i : Instruction) : LowerM Nat := do
  let pc ← here
  update (·.emit line i)
  pure pc

/-- Replaces the instruction at a position. -/
def setInstruction (pc : Nat) (i : Instruction) : LowerM Unit := do
  if pc < (← here) then update (·.setCode pc i) else misuse (.noInstructionAt pc)

/-- The offset of a jump from one position to another. It counts from the
instruction after the jump. One that the jump cannot hold is a fault of the
chunk, unless a position is not of this code and the two are too far apart even
to be compared. -/
def offsetBetween (origin target : Nat) : LowerM Int := do
  let offset ← view (·.offset origin target)
  if offset.natAbs ≤ Instruction.maxOffset then pure offset
  else if max origin target ≤ (← here) ∨ Word.holdsOffset offset then
    reject (.jumpTooFar (← currentLine))
  else misuse (.tooFarApart origin target)

/-- The offset of a jump from the next instruction. -/
def offsetFromHere (target : Nat) : LowerM Int := do offsetBetween (← here) target

/-- Makes the jump at a position land on a target. -/
def aimJump (pc target : Nat) : LowerM Unit := do
  let offset ← offsetBetween pc target
  match ← view (·.code[pc]?) with
  | some i =>
    setInstruction pc (i.withOffset offset)
    record (.jumpPatched pc target)
  | none => misuse (.noInstructionAt pc)

/-- The index of a constant in the pool, where it is added if it is new. -/
def constantIndex (k : Constant) : LowerM Nat := do
  match ← view (·.constants.toList.findIdx? (·.same k)) with
  | some i => pure i
  | none =>
    let i ← view (·.constants.size)
    update fun d => { d with constants := d.constants.push k }
    pure i

/-! ## Locals -/

/-- Declares a local in the innermost scope and gives the register it takes. -/
def declareLocal (x : String) (startPc : Nat) : LowerM Nat := do
  let slot ← takeRegister
  update (·.declare x slot startPc)
  pure slot

/-- Declares locals one after another. -/
def declareLocals (startPc : Nat) : List String → LowerM Unit
  | [] => pure ()
  | x :: rest => do
    let _ ← declareLocal x startPc
    declareLocals startPc rest

/-- The local at an index. -/
def localAt (i : Nat) : LowerM Local := do
  match ← view (·.locals[i]?) with
  | some v => pure v
  | none => misuse (.noLocalAt i)

/-- The locals at some indexes. -/
def localsAt : List Nat → LowerM (List Local)
  | [] => pure []
  | i :: rest => do
    let v ← localAt i
    let vars ← localsAt rest
    pure (v :: vars)

/-- The register of the local that a name stands for. -/
def slotOf? (x : String) : LowerM (Option Nat) := do
  match ← view (·.visible.find? x) with
  | some i =>
    let v ← localAt i
    pure (some v.slot)
  | none => pure none

/-- The number of locals declared so far. -/
def declaredCount : LowerM Nat := view (·.locals.size)

/-- Moves the ends of the locals from `first` up to `past` further out. -/
def prolongLocals (first past delta : Nat) : LowerM Unit := do
  if first ≤ past ∧ past ≤ (← declaredCount) then
    update (·.prolongLocals first (past - first) delta)
  else misuse (.noLocalsBetween first past)

/-- As `prolongLocals`, where `delta` may be any word: each new end has to be a
word too. -/
def prolongLocalsBy (first past delta : Nat) : LowerM Unit := do
  let locals ← view (·.locals.toList)
  if ((locals.take past).drop first).all fun v => Word.fits (v.endPc + delta) then
    prolongLocals first past delta
  else misuse (.pastWord delta)

/-! ## Scopes -/

/-- Enters a scope, which is that of a loop if it is `breakable`. -/
def openScope (breakable : Bool) : LowerM Unit := do
  update fun d => { d with scopes := .opened breakable :: d.scopes }
  record (.scopeOpened (← view (·.depth)) breakable)

/-- Records the jump of a `break` with the innermost loop. -/
def addBreak (pc line : Nat) : LowerM Unit := do
  let scopes ← view (·.scopes)
  match Scope.addBreak? { pc, depth := scopes.length - 1, close := 0 } scopes with
  | some scopes => update ({ · with scopes })
  | none => reject (.strayBreak line)

/-- The close level of leaving the innermost scope. -/
def closeLevel : LowerM Nat := do
  match ← view (·.scopes) with
  | [] => pure 0
  | scope :: _ =>
    let vars ← localsAt scope.locals
    pure (closeLevelOf vars)

/-- Makes the jump of a break land on a target and close what it leaves. -/
def patchBreak (close target : Nat) (b : OpenBreak) : LowerM Unit := do
  let level := joinClose b.close close
  let offset ← offsetBetween b.pc target
  setInstruction b.pc (.asbx .jmp level offset)
  record (.breakPatched b.pc target level)

/-- Patches the breaks of a loop in the order they were met. -/
def patchBreaks (close target : Nat) : List OpenBreak → LowerM Unit
  | [] => pure ()
  | b :: rest => do
    patchBreak close target b
    patchBreaks close target rest

/-- Ends a local and gives back its register. -/
def endLocal (endPc i : Nat) : LowerM Unit := do
  let v ← localAt i
  update (·.endLocal i v endPc)
  giveBack (·.release v.slot)

/-- Ends the locals of a scope, the latest first. -/
def endLocals (endPc : Nat) : List Nat → LowerM Unit
  | [] => pure ()
  | i :: rest => do
    endLocal endPc i
    endLocals endPc rest

/-- Leaves the innermost scope. Its locals end at `endPc`. If it is a loop, its
breaks land on the next instruction; if not, the breaks inside it go on to
leave the scope around it. -/
def closeScope (endPc : Nat) : LowerM Unit := do
  let close ← closeLevel
  match ← view (·.scopes) with
  | [] => pure ()
  | scope :: outer =>
    let depth := outer.length
    match scope.breaks with
    | some breaks =>
      update ({ · with scopes := outer })
      patchBreaks close (← here) breaks.reverse
    | none => update ({ · with scopes := Scope.raiseBreaks depth close outer })
    endLocals endPc scope.locals
    record (.scopeClosed (depth + 1) endPc)

/-! ## Outer variables and nested functions -/

/-- The index of an outer variable, or none if no enclosing function declares
the name. -/
def upvalueOf? (x : String) : LowerM (Option Nat) := fun w =>
  let r := w.draft.resolve x w.enclosing
  let w := { w with draft := r.draft, enclosing := r.enclosing }
  match r.index with
  | .ok i => .ok i w
  | .error e => .error e w

/-- Finishes a function and records that. -/
def finishFunction (d : Draft) : LowerM Prototype := do
  let p := d.finish (← options)
  record (.functionFinished p)
  pure p

end LuaLowering
