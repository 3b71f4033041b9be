import LuaLowering.Lower.Assignment

/-!
# Control flow

Loops, branches and returns, given the sources of their expressions and the
steps that lower their bodies. Each body is lowered in a scope of its own, and
whatever closures have captured there is closed before control leaves it.

A jump forward is written before its target is known, with an offset of zero,
and fixed when the target is reached.
-/

namespace LuaLowering

open LowerM

/-- Evaluates a condition and writes a jump that is taken when it is false; gives
the position of that jump. -/
def branchUnless (cond : Source) (line : Nat) : LowerM Nat := do
  setLine line
  let mark ← usedRegisters
  let r ← operand cond .register
  freeRegistersTo mark
  Emit.test line r.field 0
  Emit.jump line 0 0

/-- Lowers a body in a scope of its own. -/
def lowerScoped (body : LowerM Unit) (lastLine : Nat) : LowerM Unit := do
  openScope false
  body
  closeCaptured lastLine
  closeScope (← here)

/-- Lowers `break`. -/
def lowerBreak (line : Nat) : LowerM Unit := do
  let pc ← Emit.jump line 0 0
  addBreak pc line

/-- Lowers a call whose results are dropped. -/
def lowerCallStat (prepare : Nat → LowerM Int) (line : Nat) : LowerM Unit := do
  setLine line
  let r ← takeRegister
  finishCall prepare line r 0
  freeRegister

/-- Lowers `while`. -/
def lowerWhile (cond : Source) (body : LowerM Unit) (line lastLine : Nat) : LowerM Unit := do
  let start ← here
  let leave ← branchUnless cond line
  openScope true
  body
  closeCaptured lastLine
  let back ← offsetFromHere start
  let _ ← Emit.jump lastLine 0 back
  closeScope (← here)
  aimJump leave (← here)

/-- Lowers `repeat`. The condition is still in the scope of the body. -/
def lowerRepeat (body : LowerM Unit) (cond : Source) (line : Nat) : LowerM Unit := do
  openScope true
  let start ← here
  body
  setLine line
  let mark ← usedRegisters
  let r ← operand cond .register
  freeRegistersTo mark
  Emit.test line r.field 0
  let level ← closeLevel
  let back ← offsetFromHere start
  let _ ← Emit.jump line level back
  closeCaptured line
  closeScope (← here)

/-- An arm of an `if`. -/
structure Arm where
  cond : Source
  body : LowerM Unit
  line : Nat
  lastLine : Nat

/-- Lowers an arm and gives the position of the jump past it. -/
def lowerArm (arm : Arm) : LowerM Nat := do
  let skip ← branchUnless arm.cond arm.line
  lowerScoped arm.body arm.lastLine
  pure skip

/-- Lowers the arms of an `if` and gives the positions of the jumps to its end.
An arm whose condition is false goes on to the next one. -/
def lowerArms : List Arm → LowerM (List Nat)
  | [] => pure []
  | [arm] => do pure [← lowerArm arm]
  | arm :: rest => do
    let skip ← lowerArm arm
    let leave ← Emit.jump arm.lastLine 0 0
    aimJump skip (← here)
    let others ← lowerArms rest
    pure (leave :: others)

/-- Makes jumps land on a target. -/
def aimJumps (target : Nat) : List Nat → LowerM Unit
  | [] => pure ()
  | pc :: rest => do
    aimJump pc target
    aimJumps target rest

/-- Lowers `if`. -/
def lowerIf (arms : List Arm) : LowerM Unit := do
  let exits ← lowerArms arms
  aimJumps (← here) exits

/-- The hidden locals of a numeric loop. -/
def numericState : List String := ["(for index)", "(for limit)", "(for step)"]

/-- The hidden locals of a generic loop. -/
def genericState : List String := ["(for generator)", "(for state)", "(for control)"]

/-- Enters the scope of a `for`: declares its hidden locals, with the values of a
list, and then the variables that its body sees. Gives the index of the first
hidden local. -/
def enterFor (state : List String) (values : List Source) (names : List String) (line : Nat) :
    LowerM Nat := do
  setLine line
  openScope true
  let hidden ← declaredCount
  lowerDeclare state values line
  declareLocals ((← here) + 1) names
  pure hidden

/-- Leaves the scope of a `for` whose last `n` instructions step the loop. The
hidden locals live through those, the others do not. -/
def leaveFor (hidden n : Nat) : LowerM Unit := do
  closeScope (← before (← here) n)
  prolongLocals hidden (hidden + 3) n

/-- Lowers a numeric `for`. -/
def lowerNumericFor (var : String) (init limit step : Source) (body : LowerM Unit)
    (forLine doLine lastLine : Nat) : LowerM Unit := do
  let hidden ← enterFor numericState [init, limit, step] [var] forLine
  let base ← before (← usedRegisters) 4
  let prep ← Emit.forPrep doLine base 0
  body
  closeCaptured lastLine
  let step ← Emit.forLoop forLine base 0
  aimJump prep step
  aimJump step (prep + 1)
  leaveFor hidden 1

/-- Lowers a generic `for`. -/
def lowerGenericFor (names : List String) (values : List Source) (body : LowerM Unit)
    (doLine lastLine : Nat) : LowerM Unit := do
  let hidden ← enterFor genericState values names doLine
  let enter ← Emit.jump doLine 0 0
  body
  closeCaptured lastLine
  aimJump enter (← here)
  let generator := (← localAt hidden).slot
  Emit.tForCall doLine generator names.length
  let back ← offsetFromHere (enter + 1)
  let _ ← Emit.tForLoop doLine (generator + 2) back
  leaveFor hidden 2

/-- Lowers a return of the results of a call. -/
def lowerReturnCall (prepare : Nat → LowerM Int) (callLine line : Nat) : LowerM Unit := do
  setLine line
  let r ← takeRegister
  finishTailCall prepare callLine r
  freeRegister
  Emit.ret line r allValues

/-- Lowers a return of values in fresh registers. -/
def lowerReturnLoaded (values : List Source) (line : Nat) : LowerM Unit := do
  let n ← loadAll values
  freeRegisters values.length
  Emit.ret line (← usedRegisters) n

/-- Lowers a return. A single local is returned from its own register. -/
def lowerReturn (values : List Source) (line : Nat) : LowerM Unit := do
  setLine line
  match values with
  | [] => Emit.ret line 0 0
  | [⟨.name x, _⟩] =>
    match ← slotOf? x with
    | some r => Emit.ret line r 1
    | none => lowerReturnLoaded values line
  | _ => lowerReturnLoaded values line

end LuaLowering
