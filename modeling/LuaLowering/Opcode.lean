/-!
# Operations of the machine

The forty-seven operations of the Lua 5.3 register machine, in the order of
their numbers. `R(x)` is a register, `K(x)` a constant, `RK(x)` either of the
two, and `U(x)` an upvalue.
-/

namespace LuaLowering

/-- An operation of the machine. -/
inductive Opcode where
  /-- `A B`: `R(A) := R(B)` -/
  | move
  /-- `A Bx`: `R(A) := K(Bx)` -/
  | loadK
  /-- `A`: `R(A) := K(extra argument)` -/
  | loadKx
  /-- `A B C`: `R(A) := (B ≠ 0)`, and skip the next instruction if `C ≠ 0` -/
  | loadBool
  /-- `A B`: `R(A), …, R(A+B) := nil` -/
  | loadNil
  /-- `A B`: `R(A) := U(B)` -/
  | getUpval
  /-- `A B C`: `R(A) := U(B)[RK(C)]` -/
  | getTabUp
  /-- `A B C`: `R(A) := R(B)[RK(C)]` -/
  | getTable
  /-- `A B C`: `U(A)[RK(B)] := RK(C)` -/
  | setTabUp
  /-- `A B`: `U(B) := R(A)` -/
  | setUpval
  /-- `A B C`: `R(A)[RK(B)] := RK(C)` -/
  | setTable
  /-- `A B C`: `R(A) := {}`, with size hints `B` and `C` -/
  | newTable
  /-- `A B C`: `R(A+1) := R(B)`, `R(A) := R(B)[RK(C)]` -/
  | self
  | add | sub | mul | mod | pow | div | idiv
  | band | bor | bxor | shl | shr
  | unm | bnot | not | len
  /-- `A B C`: `R(A) := R(B) .. … .. R(C)` -/
  | concat
  /-- `A sBx`: jump by `sBx`; if `A ≠ 0`, close the upvalues from `R(A-1)` up -/
  | jmp
  /-- `A B C`: skip the next instruction if `(RK(B) = RK(C)) ≠ A` -/
  | eq
  | lt
  | le
  /-- `A C`: skip the next instruction unless `R(A)` has the truth value `C` -/
  | test
  /-- `A B C`: `R(A) := R(B)` if `R(B)` has the truth value `C`, else skip -/
  | testSet
  /-- `A B C`: `R(A), …, R(A+C-2) := R(A)(R(A+1), …, R(A+B-1))` -/
  | call
  /-- `A B`: `return R(A)(R(A+1), …, R(A+B-1))` -/
  | tailCall
  /-- `A B`: `return R(A), …, R(A+B-2)` -/
  | ret
  /-- `A sBx`: step the loop at `R(A)` and jump back while it lasts -/
  | forLoop
  /-- `A sBx`: undo one step of the loop at `R(A)` and jump to its end -/
  | forPrep
  /-- `A C`: `R(A+3), …, R(A+2+C) := R(A)(R(A+1), R(A+2))` -/
  | tForCall
  /-- `A sBx`: if `R(A+1) ≠ nil`, then `R(A) := R(A+1)` and jump -/
  | tForLoop
  /-- `A B C`: `R(A)[(C-1)*50+i] := R(A+i)` for `1 ≤ i ≤ B` -/
  | setList
  /-- `A Bx`: `R(A)` becomes a closure of the nested function `Bx` -/
  | closure
  /-- `A B`: `R(A), …, R(A+B-2) := ...` -/
  | vararg
  /-- `Ax`: an argument of the operation before -/
  | extraArg
deriving DecidableEq, Repr

/-- How the operands lie in an instruction word. -/
inductive Mode where
  | abc | abx | asbx | ax
deriving DecidableEq, Repr

def Mode.name : Mode → String
  | .abc => "ABC"
  | .abx => "ABx"
  | .asbx => "AsBx"
  | .ax => "Ax"

namespace Opcode

/-- The operations in the order of their numbers. -/
def all : List Opcode :=
  [move, loadK, loadKx, loadBool, loadNil, getUpval, getTabUp, getTable, setTabUp, setUpval,
   setTable, newTable, self, add, sub, mul, mod, pow, div, idiv, band, bor, bxor, shl, shr,
   unm, bnot, not, len, concat, jmp, eq, lt, le, test, testSet, call, tailCall, ret,
   forLoop, forPrep, tForCall, tForLoop, setList, closure, vararg, extraArg]

/-- The number of an operation. -/
def number (op : Opcode) : Nat := op.ctorIdx

/-- The operation with a given number. -/
def ofNumber? (n : Nat) : Option Opcode := all[n]?

theorem ofNumber?_number (op : Opcode) : ofNumber? op.number = some op := by
  cases op <;> rfl

theorem number_lt (op : Opcode) : op.number < 47 := by
  cases op <;> decide

def mode : Opcode → Mode
  | loadK | loadKx | closure => .abx
  | jmp | forLoop | forPrep | tForLoop => .asbx
  | extraArg => .ax
  | _ => .abc

/-- The name in a listing. -/
def name : Opcode → String
  | move => "MOVE"
  | loadK => "LOADK"
  | loadKx => "LOADKX"
  | loadBool => "LOADBOOL"
  | loadNil => "LOADNIL"
  | getUpval => "GETUPVAL"
  | getTabUp => "GETTABUP"
  | getTable => "GETTABLE"
  | setTabUp => "SETTABUP"
  | setUpval => "SETUPVAL"
  | setTable => "SETTABLE"
  | newTable => "NEWTABLE"
  | self => "SELF"
  | add => "ADD"
  | sub => "SUB"
  | mul => "MUL"
  | mod => "MOD"
  | pow => "POW"
  | div => "DIV"
  | idiv => "IDIV"
  | band => "BAND"
  | bor => "BOR"
  | bxor => "BXOR"
  | shl => "SHL"
  | shr => "SHR"
  | unm => "UNM"
  | bnot => "BNOT"
  | not => "NOT"
  | len => "LEN"
  | concat => "CONCAT"
  | jmp => "JMP"
  | eq => "EQ"
  | lt => "LT"
  | le => "LE"
  | test => "TEST"
  | testSet => "TESTSET"
  | call => "CALL"
  | tailCall => "TAILCALL"
  | ret => "RETURN"
  | forLoop => "FORLOOP"
  | forPrep => "FORPREP"
  | tForCall => "TFORCALL"
  | tForLoop => "TFORLOOP"
  | setList => "SETLIST"
  | closure => "CLOSURE"
  | vararg => "VARARG"
  | extraArg => "EXTRAARG"

end Opcode

end LuaLowering
