import LuaLowering.Opcode

/-!
# Instruction words

An instruction is one 32-bit word. From the low end it holds the operation in
6 bits, `A` in 8, `C` in 9 and `B` in 9; `Bx` is `C` and `B` read as one field
of 18 bits, and `Ax` is all 26 bits above the operation. A jump keeps its
signed offset in `Bx`, biased so that the field is never negative.

Words are built and read by arithmetic on natural numbers: a field is a
quotient and a remainder. One unit of `A` is `0x40`, one of `C`, `Bx` or a
signed offset `0x4000`, and one of `B` `0x800000`. Operands wider than their
field lose their high bits.
-/

namespace LuaLowering

/-- An instruction word. -/
structure Instruction where
  word : UInt32
deriving DecidableEq, Repr

namespace Instruction

/-- The largest value of `Bx`. -/
def maxBx : Nat := 0x3ffff

/-- The bias of a jump offset, and the furthest a jump can reach. -/
def maxOffset : Nat := 0x1ffff

/-- Whether a biased offset stays within 32 signed bits. -/
def canBias (offset : Int) : Bool := offset + maxOffset < 0x80000000

/-- The `Bx` field that holds a jump offset. -/
def biased (offset : Int) : Nat := ((offset + maxOffset) % 0x40000).toNat

/-- A word with the operands `A`, `B` and `C`. -/
def abc (op : Opcode) (a b c : Nat) : Instruction :=
  ⟨.ofNat (op.number + a % 0x100 * 0x40 + c % 0x200 * 0x4000 + b % 0x200 * 0x800000)⟩

/-- A word with the operands `A` and `Bx`. -/
def abx (op : Opcode) (a bx : Nat) : Instruction :=
  ⟨.ofNat (op.number + a % 0x100 * 0x40 + bx % 0x40000 * 0x4000)⟩

/-- A word with the operand `A` and a signed offset. -/
def asbx (op : Opcode) (a : Nat) (offset : Int) : Instruction := abx op a (biased offset)

/-- A word with the operand `Ax`. -/
def ax (op : Opcode) (x : Nat) : Instruction :=
  ⟨.ofNat (op.number + x % 0x4000000 * 0x40)⟩

/-- The operation, if the word holds the number of one. -/
def opcode? (i : Instruction) : Option Opcode := Opcode.ofNumber? (i.word.toNat % 0x40)

def a (i : Instruction) : Nat := i.word.toNat / 0x40 % 0x100

def b (i : Instruction) : Nat := i.word.toNat / 0x800000

def c (i : Instruction) : Nat := i.word.toNat / 0x4000 % 0x200

def bx (i : Instruction) : Nat := i.word.toNat / 0x4000

def axField (i : Instruction) : Nat := i.word.toNat / 0x40

/-- The signed offset of a jump. -/
def offset (i : Instruction) : Int := i.bx - maxOffset

/-- Replaces the offset and keeps all else. -/
def withOffset (i : Instruction) (offset : Int) : Instruction :=
  ⟨.ofNat (i.word.toNat % 0x4000 + biased offset * 0x4000)⟩

/-- Replaces `A` and keeps all else. -/
def withA (i : Instruction) (a : Nat) : Instruction :=
  ⟨.ofNat (i.word.toNat % 0x40 + a % 0x100 * 0x40 + i.bx * 0x4000)⟩

/-- Whether a field that may be a register or a constant is a constant: its
ninth bit says so. -/
def isConstant (field : Nat) : Bool := field / 0x100 % 2 = 1

/-- The field that stands for the constant at an index. -/
def constantField (index : Nat) : Nat :=
  if isConstant index then index % 0x100000000 else index % 0x100000000 + 0x100

end Instruction

end LuaLowering
