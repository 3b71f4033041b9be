import LuaLowering.Instruction

/-!
# Instructions as text

A listing shows an instruction as its name and the operands the operation
uses. Constants are told from registers by their sign: the constant at index
`k` is written `-1-k`.

Which operands an operation shows, and in which reading, is data
(`Opcode.shown`), so that the text is one function for all of them.
-/

namespace LuaLowering

/-- An operand in a listing: a field of the word and how it is read. -/
inductive Shown where
  | a | b | c | bx | offset
  /-- `B` or `C` as a register or a constant -/
  | rkB | rkC
  /-- `Bx` or `Ax` as a constant -/
  | constBx | constAx
deriving DecidableEq, Repr

/-- The operands that the listing of an operation shows. -/
def Opcode.shown : Opcode → List Shown
  | .move | .loadNil | .getUpval | .setUpval | .unm | .bnot | .not | .len | .ret | .vararg =>
    [.a, .b]
  | .test | .tForCall => [.a, .c]
  | .getTabUp | .getTable | .self => [.a, .b, .rkC]
  | .setTabUp | .setTable
  | .add | .sub | .mul | .mod | .pow | .div | .idiv | .band | .bor | .bxor | .shl | .shr
  | .eq | .lt | .le => [.a, .rkB, .rkC]
  | .loadK => [.a, .constBx]
  | .loadKx => [.a]
  | .closure => [.a, .bx]
  | .jmp | .forLoop | .forPrep | .tForLoop => [.a, .offset]
  | .extraArg => [.constAx]
  | .loadBool | .newTable | .concat | .testSet | .call | .tailCall | .setList => [.a, .b, .c]

namespace Instruction

/-- The number shown for a field that may be a register or a constant. -/
def rkNumber (field : Nat) : Int :=
  if isConstant field then -1 - (field - 0x100 : Nat) else field

/-- The number shown for an operand. -/
def shownNumber (i : Instruction) : Shown → Int
  | .a => i.a
  | .b => i.b
  | .c => i.c
  | .bx => i.bx
  | .offset => i.offset
  | .rkB => rkNumber i.b
  | .rkC => rkNumber i.c
  | .constBx => -1 - i.bx
  | .constAx => -1 - i.axField

/-- The digits of `n` to base sixteen, at least `width` of them. -/
def hexText (width n : Nat) : String :=
  let digits := Nat.toDigits 16 n
  String.ofList (List.replicate (width - digits.length) '0' ++ digits)

/-- Fills up with blanks on the right to `width` characters. -/
def padRight (width : Nat) (s : String) : String :=
  s ++ String.ofList (List.replicate (width - s.length) ' ')

/-- The text of an instruction in a listing. -/
def text (i : Instruction) : String :=
  match i.opcode? with
  | none => "<bad 0x" ++ hexText 8 i.word.toNat ++ ">"
  | some op =>
    padRight 9 op.name ++ String.join (op.shown.map fun s => " " ++ (i.shownNumber s).repr)

end Instruction

end LuaLowering
