import Mathlib.Logic.Function.Basic
import Mathlib.Logic.Relation
import LuaLowering.Emit
import LuaLowering.Proofs.Words

/-!
# A register machine for expressions and stores

The machine runs the instructions that expressions without calls, functions and table
constructors are made of, and those that store a value. What the values are and what can
be done with them is left open: an `Interpretation` says so, and its operations may be
undefined. The machine is stuck where one is, and at anything else it does not
understand: another operation, or a register, a constant or an upvalue that is not there.

The contents of all tables are one heap. Reading does not change it.

The machine of the first-order fragment also runs loops and comes to an end, but it has
values of its own, and its only table is that of the globals.
-/

namespace LuaLowering

/-- Values, the heap that tables live in, and what the operators do. -/
structure Interpretation (V H : Type) where
  constant : Constant → V
  truthy : V → Bool
  unary : UnaryOp → V → Option V
  /-- The operators that are neither comparisons nor `and` and `or`. -/
  arithmetic : BinaryOp → V → V → Option V
  equal : V → V → Option Bool
  less : V → V → Option Bool
  lessEqual : V → V → Option Bool
  concat : List V → Option V
  /-- What a heap has in a table under a key. -/
  index : H → V → V → Option V
  /-- The heap after a store to a table. -/
  store : H → V → V → V → Option H

namespace Interpretation

variable {V H : Type} (I : Interpretation V H)

def boolean (b : Bool) : V := I.constant (.boolean b)

/-- What an operator makes of two values, if it needs both. `x > y` is `y < x`. -/
def strict (op : BinaryOp) (l r : V) : Option V :=
  match op with
  | .and | .or => none
  | .eq => (I.equal l r).map I.boolean
  | .ne => (I.equal l r).map fun b => I.boolean !b
  | .lt => (I.less l r).map I.boolean
  | .gt => (I.less r l).map I.boolean
  | .le => (I.lessEqual l r).map I.boolean
  | .ge => (I.lessEqual r l).map I.boolean
  | op => I.arithmetic op l r

end Interpretation

namespace Evaluation

/-- A state of the machine. -/
structure State (V H : Type) where
  pc : Nat
  regs : Nat → V
  upvalues : Nat → V
  heap : H

/-- Where a store goes. -/
inductive Destination (V : Type) where
  | register (r : Nat)
  | upvalue (u : Nat)
  | field (table key : V)

variable {V H : Type}

namespace State

def register? (s : State V H) (r : Nat) : Option V := if r < 0x100 then some (s.regs r) else none

def set (s : State V H) (r : Nat) (v : V) : State V H :=
  { s with regs := Function.update s.regs r v }

def skip (s : State V H) (n : Nat) : State V H := { s with pc := s.pc + n }

/-- Moves by an offset, which counts from the next instruction. -/
def jump? (s : State V H) (offset : Int) : Option (State V H) :=
  if 0 ≤ s.pc + 1 + offset then some { s with pc := (s.pc + 1 + offset).toNat } else none

/-- Goes on, past the next instruction unless a test holds. -/
def branch (s : State V H) (holds : Bool) : State V H := s.skip (if holds then 1 else 2)

/-- Stores a value. -/
def write? (I : Interpretation V H) (s : State V H) (v : V) : Destination V → Option (State V H)
  | .register r => some (s.set r v)
  | .upvalue u => some { s with upvalues := Function.update s.upvalues u v }
  | .field table key => (I.store s.heap table key v).map fun heap => { s with heap }

end State

variable (I : Interpretation V H) (p : Prototype)

def upvalue? (s : State V H) (u : Nat) : Option V :=
  if u < p.upvalues.length then some (s.upvalues u) else none

/-- The value of a field that is a register or a constant. -/
def operand? (s : State V H) (field : Nat) : Option V :=
  if Instruction.isConstant field then (p.constants[field % 0x100]?).map I.constant
  else s.register? field

/-- Sets the register `A` to a value, if there is one. -/
def assign? (s : State V H) (i : Instruction) (v : Option V) : Option (State V H) :=
  v.map fun v => (s.set i.a v).skip 1

/-- Combines two operands. -/
def combine? (s : State V H) (i : Instruction) (f : V → V → Option V) : Option (State V H) := do
  let left ← operand? I p s i.b
  let right ← operand? I p s i.c
  assign? s i (f left right)

/-- Compares two operands and skips unless the outcome is the expected one. -/
def compare? (s : State V H) (i : Instruction) (test : V → V → Option Bool) :
    Option (State V H) := do
  let left ← operand? I p s i.b
  let right ← operand? I p s i.c
  let outcome ← test left right
  some (s.branch (outcome == (i.a != 0)))

/-- The values in a row of registers. -/
def row? (s : State V H) (first last : Nat) : Option (List V) :=
  if first ≤ last ∧ last < 0x100 then
    some ((List.range' first (last + 1 - first)).map s.regs)
  else none

/-- Where a store goes and what it stores. -/
def store? (s : State V H) (i : Instruction) : Opcode → Option (Destination V × V)
  | .move => do some (.register i.a, ← s.register? i.b)
  | .setUpval =>
    if i.b < p.upvalues.length then do some (.upvalue i.b, ← s.register? i.a) else none
  | .setTable => do
    let table ← s.register? i.a
    let key ← operand? I p s i.b
    some (.field table key, ← operand? I p s i.c)
  | .setTabUp => do
    let table ← upvalue? p s i.a
    let key ← operand? I p s i.b
    some (.field table key, ← operand? I p s i.c)
  | _ => none

/-- Executes a store. -/
def perform? (s : State V H) (i : Instruction) (op : Opcode) : Option (State V H) := do
  let (d, v) ← store? I p s i op
  (s.write? I v d).map (·.skip 1)

/-- Executes an instruction. -/
@[simp] def exec (i : Instruction) (s : State V H) : Opcode → Option (State V H)
  | .loadK => assign? s i ((p.constants[i.bx]?).map I.constant)
  | .loadNil =>
    if i.a + i.b < 0x100 then
      let regs r := if i.a ≤ r ∧ r ≤ i.a + i.b then I.constant .nil else s.regs r
      some ({ s with regs }.skip 1)
    else none
  | .loadBool => some ((s.set i.a (I.boolean (i.b != 0))).skip (if i.c = 0 then 1 else 2))
  | .getUpval => assign? s i (upvalue? p s i.b)
  | .getTabUp => do
    let table ← upvalue? p s i.b
    let key ← operand? I p s i.c
    assign? s i (I.index s.heap table key)
  | .getTable => do
    let table ← s.register? i.b
    let key ← operand? I p s i.c
    assign? s i (I.index s.heap table key)
  | .unm => do assign? s i (I.unary .minus (← s.register? i.b))
  | .not => do assign? s i (I.unary .not (← s.register? i.b))
  | .len => do assign? s i (I.unary .length (← s.register? i.b))
  | .bnot => do assign? s i (I.unary .bitNot (← s.register? i.b))
  | .add => combine? I p s i (I.arithmetic .add)
  | .sub => combine? I p s i (I.arithmetic .sub)
  | .mul => combine? I p s i (I.arithmetic .mul)
  | .mod => combine? I p s i (I.arithmetic .mod)
  | .pow => combine? I p s i (I.arithmetic .pow)
  | .div => combine? I p s i (I.arithmetic .div)
  | .idiv => combine? I p s i (I.arithmetic .floorDiv)
  | .band => combine? I p s i (I.arithmetic .bitAnd)
  | .bor => combine? I p s i (I.arithmetic .bitOr)
  | .bxor => combine? I p s i (I.arithmetic .bitXor)
  | .shl => combine? I p s i (I.arithmetic .shiftLeft)
  | .shr => combine? I p s i (I.arithmetic .shiftRight)
  | .concat => do assign? s i (I.concat (← row? s i.b i.c))
  | .jmp => s.jump? i.offset
  | .eq => compare? I p s i I.equal
  | .lt => compare? I p s i I.less
  | .le => compare? I p s i I.lessEqual
  | .test => do some (s.branch (I.truthy (← s.register? i.a) == (i.c != 0)))
  | .testSet => do
    let v ← s.register? i.b
    some (if I.truthy v == (i.c != 0) then (s.set i.a v).skip 1 else s.skip 2)
  | op => perform? I p s i op

def step (s : State V H) : Option (State V H) := do
  let i ← p.code[s.pc]?
  exec I p i s (← i.opcode?)

/-- One state leads to another in any number of steps. -/
abbrev Reaches : State V H → State V H → Prop :=
  Relation.ReflTransGen fun s s' => step I p s = some s'

end Evaluation

end LuaLowering
