import Mathlib.Logic.Function.Basic
import Mathlib.Logic.Relation
import LuaLowering.Prototype
import LuaLowering.Proofs.Execution.Value

/-!
# A register machine for the first-order fragment

The machine has 256 registers and a table of globals, and understands just the
instructions that code of the first-order fragment is made of. Anything else
leaves it stuck: an unknown operation, a register or a constant that is not there,
an operand of the wrong kind.
-/

namespace LuaLowering

variable {A : Arithmetic} {p : Prototype} {s : State} {values : List Value} {g : Globals}

namespace Machine

structure State where
  pc : Nat
  regs : Nat → Value
  globals : Globals

/-- How a machine starts on a chunk: every register is nil. -/
def start (g : Globals) : State := ⟨0, fun _ => .nil, g⟩

namespace State

def register? (s : State) (r : Nat) : Option Value := if r < 256 then some (s.regs r) else none

def integer? (s : State) (r : Nat) : Option Int64 := (s.register? r).bind Value.integer?

def set (s : State) (r : Nat) (v : Value) : State := { s with regs := Function.update s.regs r v }

def skip (s : State) (n : Nat) : State := { s with pc := s.pc + n }

/-- Moves by an offset, which counts from the next instruction. -/
def jump? (s : State) (offset : Int) : Option State :=
  if 0 ≤ s.pc + 1 + offset then some { s with pc := (s.pc + 1 + offset).toNat } else none

end State

def constant? (p : Prototype) (i : Nat) : Option Value := p.constants[i]?.bind Value.ofConstant?

/-- The value of a field that is a register or a constant. -/
def operand? (p : Prototype) (s : State) (field : Nat) : Option Value :=
  if Instruction.isConstant field then constant? p (field % 0x100) else s.register? field

/-- The name of a global. -/
def key? (p : Prototype) (s : State) (field : Nat) : Option String :=
  (operand? p s field).bind Value.string?

/-- What an instruction leads to: another state, or the end of the run. -/
inductive Turn where
  | next (s : State)
  | halt (values : List Value) (globals : Globals)

/-- Goes on, past the next instruction unless a test holds. -/
def branch (s : State) (holds : Bool) : Turn := .next (s.skip (if holds then 1 else 2))

/-- Compares two operands and skips unless the outcome is the expected one. -/
def compare? (p : Prototype) (s : State) (i : Instruction)
    (test : Value → Value → Option Value) : Option Turn := do
  let left ← operand? p s i.b
  let right ← operand? p s i.c
  let outcome ← test left right
  some (branch s (outcome == .boolean (i.a != 0)))

/-- Combines two operands. -/
def combine? (p : Prototype) (s : State) (i : Instruction)
    (f : Value → Value → Option Value) : Option Turn := do
  let left ← operand? p s i.b
  let right ← operand? p s i.c
  let v ← f left right
  some (.next ((s.set i.a v).skip 1))

/-- Executes an instruction. -/
@[simp] def exec (A : Arithmetic) (p : Prototype) (i : Instruction) (s : State) :
    Opcode → Option Turn
  | .move => do some (.next ((s.set i.a (← s.register? i.b)).skip 1))
  | .loadK => do some (.next ((s.set i.a (← constant? p i.bx)).skip 1))
  | .loadNil =>
    if i.a + i.b < 256 then
      let regs r := if i.a ≤ r ∧ r ≤ i.a + i.b then .nil else s.regs r
      some (.next ({ s with regs }.skip 1))
    else none
  | .loadBool => some (.next ((s.set i.a (.boolean (i.b != 0))).skip (if i.c = 0 then 1 else 2)))
  | .getTabUp => do some (.next ((s.set i.a (s.globals.read (← key? p s i.c))).skip 1))
  | .setTabUp => do
    let v ← operand? p s i.c
    let x ← key? p s i.b
    some (.next ({ s with globals := s.globals.write x v }.skip 1))
  | .add => combine? p s i (BinaryOp.add.result? A)
  | .sub => combine? p s i (BinaryOp.sub.result? A)
  | .eq => compare? p s i (BinaryOp.eq.result? A)
  | .lt => compare? p s i (BinaryOp.lt.result? A)
  | .le => compare? p s i (BinaryOp.le.result? A)
  | .jmp => (s.jump? i.offset).map .next
  | .test => do some (branch s ((← s.register? i.a).truthy == (i.c != 0)))
  | .testSet => do
    let v ← s.register? i.b
    if v.truthy == (i.c != 0) then some (.next ((s.set i.a v).skip 1)) else some (.next (s.skip 2))
  | .forPrep => do
    let start ← A.sub (← s.integer? i.a) (← s.integer? (i.a + 2))
    ((s.set i.a (.integer start)).jump? i.offset).map .next
  | .forLoop => do
    let step ← s.integer? (i.a + 2)
    let counter ← A.add (← s.integer? i.a) step
    let limit ← s.integer? (i.a + 1)
    let s := s.set i.a (.integer counter)
    if withinLimit counter limit step then
      if i.a + 3 < 256 then ((s.set (i.a + 3) (.integer counter)).jump? i.offset).map .next
      else none
    else some (.next (s.skip 1))
  | .ret =>
    if 0 < i.b ∧ i.a + i.b ≤ 257 then
      some (.halt ((List.range (i.b - 1)).map fun k => s.regs (i.a + k)) s.globals)
    else none
  | _ => none

def step (A : Arithmetic) (p : Prototype) (s : State) : Option Turn := do
  let i ← p.code[s.pc]?
  exec A p i s (← i.opcode?)

/-- Runs a chunk for at most `n` instructions, to what its return yields. -/
def run (A : Arithmetic) (p : Prototype) : Nat → State → Option (List Value × Globals)
  | 0, _ => none
  | n + 1, s =>
    match step A p s with
    | some (.next s') => run A p n s'
    | some (.halt values globals) => some (values, globals)
    | none => none

/-- One state leads to another in any number of steps. -/
abbrev Reaches (A : Arithmetic) (p : Prototype) : State → State → Prop :=
  Relation.ReflTransGen fun s s' => step A p s = some (.next s')

/-- A state leads to the end of the run. -/
def Halts (A : Arithmetic) (p : Prototype) (s : State) (values : List Value) (g : Globals) : Prop :=
  ∃ s', Reaches A p s s' ∧ step A p s' = some (.halt values g)

theorem Reaches.halts {s' : State} (h : Reaches A p s s') (hh : Halts A p s' values g) :
    Halts A p s values g := by
  obtain ⟨t, ht, hend⟩ := hh
  exact ⟨t, h.trans ht, hend⟩

theorem Halts.run (h : Halts A p s values g) : ∃ n, Machine.run A p n s = some (values, g) := by
  obtain ⟨t, ht, hend⟩ := h
  induction ht using Relation.ReflTransGen.head_induction_on with
  | refl =>
    refine ⟨1, ?_⟩
    rw [Machine.run, hend]
  | head hstep _ ih =>
    obtain ⟨n, hn⟩ := ih
    refine ⟨n + 1, ?_⟩
    rw [Machine.run, hstep]
    exact hn

end Machine

end LuaLowering
