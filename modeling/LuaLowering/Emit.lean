import LuaLowering.Builder
import LuaLowering.SizeHint

/-!
# Writing instructions

One writer for each instruction that lowering uses, with the operands in the
order of its meaning. Counts of values are numbers with one reserved value:
`allValues` stands for as many as there are. A count field holds one more than
the count, so that this case is zero.
-/

namespace LuaLowering

open LowerM

/-- The count that stands for as many values as there are. -/
def allValues : Int := -1

/-- The field for a count of values. Counts are 32-bit numbers, and a negative
one other than `allValues` keeps the low bits of its two's complement. -/
def countField (n : Int) : LowerM Nat :=
  if n + 1 < 0x80000000 then pure ((n + 1) % 0x100000000).toNat else misuse (.countTooLarge n)

/-- The field for a size hint. -/
def sizeField (n : Nat) : LowerM Nat :=
  match SizeHint.encode? n with
  | some x => pure x
  | none => misuse (.pastWord n)

namespace Emit

/-- Writes an instruction with the operands `A`, `B` and `C`. -/
def abc (line : Nat) (op : Opcode) (a b c : Nat) : LowerM Nat := emit line (.abc op a b c)

/-- Writes an instruction with the operands `A` and `Bx`. -/
def abx (line : Nat) (op : Opcode) (a bx : Nat) : LowerM Nat := emit line (.abx op a bx)

/-- Writes an instruction with the operand `A` and an offset. -/
def asbx (line : Nat) (op : Opcode) (a : Nat) (offset : Int) : LowerM Nat :=
  if Instruction.canBias offset then emit line (.asbx op a offset)
  else misuse (.offsetTooLarge offset)

/-- Writes an instruction whose position is not needed. -/
def plain (line : Nat) (op : Opcode) (a b c : Nat) : LowerM Unit := do
  let _ ← abc line op a b c

def move (line a b : Nat) : LowerM Unit := plain line .move a b 0

/-- Sets `n` registers from `a` on to nil; `n` is at least one. -/
def loadNil (line a n : Nat) : LowerM Unit := do
  plain line .loadNil a (← before n 1) 0

def loadBool (line a b c : Nat) : LowerM Unit := plain line .loadBool a b c

/-- Loads a constant. One beyond the reach of `Bx` has its index in a word of
its own. -/
def loadConstant (line a : Nat) (k : Constant) : LowerM Unit := do
  let i ← constantIndex k
  if i ≤ Instruction.maxBx then
    let _ ← abx line .loadK a i
  else
    let _ ← abx line .loadKx a 0
    let _ ← emit line (.ax .extraArg i)

/-- Loads `n` of the function's extra arguments. -/
def vararg (line a : Nat) (n : Int) : LowerM Unit := do
  plain line .vararg a (← countField n) 0

def closure (line a bx : Nat) : LowerM Unit := do
  let _ ← abx line .closure a bx

/-- Makes a table, with hints for its positional and its keyed fields. -/
def newTable (line a items entries : Nat) : LowerM Unit := do
  plain line .newTable a (← sizeField items) (← sizeField entries)

def setList (line a b c : Nat) : LowerM Unit := plain line .setList a b c

def getTable (line a b c : Nat) : LowerM Unit := plain line .getTable a b c

def setTable (line a b c : Nat) : LowerM Unit := plain line .setTable a b c

def getUpval (line a b : Nat) : LowerM Unit := plain line .getUpval a b 0

def setUpval (line a b : Nat) : LowerM Unit := plain line .setUpval a b 0

def getTabUp (line a b c : Nat) : LowerM Unit := plain line .getTabUp a b c

def setTabUp (line a b c : Nat) : LowerM Unit := plain line .setTabUp a b c

/-- Calls the function in `a` with `args` arguments and keeps `results` of its
results. -/
def call (line a : Nat) (args results : Int) : LowerM Unit := do
  plain line .call a (← countField args) (← countField results)

def tailCall (line a : Nat) (args : Int) : LowerM Unit := do
  plain line .tailCall a (← countField args) 0

/-- Returns `n` values from `a` on. -/
def ret (line a : Nat) (n : Int) : LowerM Unit := do
  plain line .ret a (← countField n) 0

def forPrep (line a : Nat) (offset : Int) : LowerM Nat := asbx line .forPrep a offset

def forLoop (line a : Nat) (offset : Int) : LowerM Nat := asbx line .forLoop a offset

def tForCall (line a c : Nat) : LowerM Unit := plain line .tForCall a 0 c

def tForLoop (line a : Nat) (offset : Int) : LowerM Nat := asbx line .tForLoop a offset

/-- A jump that also closes the upvalues of a close level. -/
def jump (line close : Nat) (offset : Int) : LowerM Nat := asbx line .jmp close offset

def test (line a c : Nat) : LowerM Unit := plain line .test a 0 c

def testSet (line a b c : Nat) : LowerM Unit := plain line .testSet a b c

def self (line a b c : Nat) : LowerM Unit := plain line .self a b c

/-- The operation of a unary operator. -/
def unaryOpcode : UnaryOp → Opcode
  | .minus => .unm
  | .not => .not
  | .length => .len
  | .bitNot => .bnot

def unary (line : Nat) (op : UnaryOp) (a b : Nat) : LowerM Unit :=
  plain line (unaryOpcode op) a b 0

/-- The operation of an arithmetic or bitwise operator. -/
def arithmetic? : BinaryOp → Option Opcode
  | .add => some .add
  | .sub => some .sub
  | .mul => some .mul
  | .div => some .div
  | .floorDiv => some .idiv
  | .mod => some .mod
  | .pow => some .pow
  | .bitAnd => some .band
  | .bitOr => some .bor
  | .bitXor => some .bxor
  | .shiftLeft => some .shl
  | .shiftRight => some .shr
  | _ => none

/-- The test of a comparison: its operation, the outcome it is compared with
and its operands. `x > y` is tested as `y < x`. -/
def comparison? (op : BinaryOp) (b c : Nat) : Option (Opcode × Nat × Nat × Nat) :=
  match op with
  | .eq => some (.eq, 1, b, c)
  | .ne => some (.eq, 0, b, c)
  | .lt => some (.lt, 1, b, c)
  | .gt => some (.lt, 1, c, b)
  | .le => some (.le, 1, b, c)
  | .ge => some (.le, 1, c, b)
  | _ => none

/-- Applies a binary operator to two operands. An arithmetic operator is one
instruction; a comparison is a test followed by the two ways to load its
outcome. The operators that skip their right operand have no form here. -/
def binary (line : Nat) (op : BinaryOp) (a b c : Nat) : LowerM Unit := do
  match arithmetic? op with
  | some code => plain line code a b c
  | none =>
    match comparison? op b c with
    | some (code, outcome, left, right) =>
      plain line code outcome left right
      let _ ← jump line 0 1
      loadBool line a 0 1
      loadBool line a 1 0
    | none => pure ()

end Emit

/-- Closes the upvalues of the innermost scope before control leaves it. -/
def closeCaptured (line : Nat) : LowerM Unit := do
  let level ← closeLevel
  if 0 < level then
    let _ ← Emit.jump line level 0

end LuaLowering
