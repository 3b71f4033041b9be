import Mathlib.Order.Interval.Set.Basic
import LuaLowering.Proofs.Words

/-!
# What an instruction does

The table of the machine's operations as data: which registers an instruction
reads, which it writes and which it leaves as they were, where control goes on
after it, and what else its operands name. Everything is read off the word of the
instruction, so that it can be asked of any code.

A call gives its callee the registers from its base on, so nothing that stood
there outlives it. Results whose number is not known fill the registers from the
first one up, for as long as nothing has taken them.
-/

namespace LuaLowering

/-! ## Rows of registers -/

/-- Registers in a row. Without a count they have no end. -/
structure Span where
  first : Nat
  count : Option Nat
deriving DecidableEq, Repr

namespace Span

def one (r : Nat) : Span := ⟨r, some 1⟩

/-- A row whose length stands in a count field, which is one more than the length,
or zero for a row without end. -/
def counted (first field : Nat) : Span := ⟨first, if field = 0 then none else some (field - 1)⟩

/-- The registers of a row. -/
def toSet (s : Span) : Set Nat :=
  match s.count with
  | some n => Set.Ico s.first (s.first + n)
  | none => Set.Ici s.first

/-- The registers of a row that are known before it is run: of a row without end,
the first. -/
def known (s : Span) : List Nat := List.range' s.first (s.count.getD 1)

@[simp] theorem toSet_one (r : Nat) : (one r).toSet = {r} := by
  ext x
  simp only [toSet, one, Set.mem_Ico, Set.mem_singleton_iff]
  omega

@[simp] theorem known_one (r : Nat) : (one r).known = [r] := rfl

@[simp] theorem toSet_some (first n : Nat) :
    (Span.mk first (some n)).toSet = Set.Ico first (first + n) := rfl

@[simp] theorem toSet_none (first : Nat) : (Span.mk first none).toSet = Set.Ici first := rfl

@[simp] theorem mem_known_some {first n r : Nat} :
    r ∈ (Span.mk first (some n)).known ↔ first ≤ r ∧ r < first + n := by
  simp [known]

@[simp] theorem known_none (first : Nat) : (Span.mk first none).known = [first] := rfl

end Span

/-! ## The table -/

/-- Where control goes on: at the next instruction, at the one behind it, or where
the offset leads. -/
inductive Turn where
  | next | skip | jump
deriving DecidableEq, Repr

/-- The register in a field that may also name a constant. -/
def registerIn (field : Nat) : List Span :=
  if Instruction.isConstant field then [] else [.one field]

/-- The constant in a field that may also name a register. -/
def constantIn (field : Nat) : List Nat :=
  if Instruction.isConstant field then [field - 0x100] else []

namespace Opcode

/-- The registers that are read. -/
@[simp] def reads (op : Opcode) (a b c : Nat) : List Span :=
  match op with
  | .move | .unm | .bnot | .not | .len | .testSet => [.one b]
  | .getTabUp => registerIn c
  | .getTable | .self => .one b :: registerIn c
  | .setTable => .one a :: (registerIn b ++ registerIn c)
  | .setUpval | .test => [.one a]
  | .setTabUp | .add | .sub | .mul | .mod | .pow | .div | .idiv | .band | .bor | .bxor | .shl | .shr
  | .eq | .lt | .le => registerIn b ++ registerIn c
  | .concat => [⟨b, some (c + 1 - b)⟩]
  | .call | .tailCall => [.one a, .counted (a + 1) b]
  | .ret => [.counted a b]
  | .forLoop | .forPrep | .tForCall => [⟨a, some 3⟩]
  | .tForLoop => [.one (a + 1)]
  | .setList => [.one a, ⟨a + 1, if b = 0 then none else some b⟩]
  | .loadK | .loadKx | .loadBool | .loadNil | .getUpval | .newTable | .jmp | .closure | .vararg
  | .extraArg => []

/-- The registers that are written, whichever way control goes on. -/
@[simp] def writes (op : Opcode) (a b c : Nat) : List Span :=
  match op with
  | .loadNil => [⟨a, some (b + 1)⟩]
  | .self => [⟨a, some 2⟩]
  | .call => [.counted a c]
  | .tailCall => [.counted a 0]
  | .vararg => [.counted a b]
  | .tForCall => [⟨a + 3, some c⟩]
  | .setTabUp | .setUpval | .setTable | .jmp | .eq | .lt | .le | .test | .testSet | .ret | .tForLoop
  | .setList | .extraArg => []
  | _ => [.one a]

/-- Where a call begins to use the registers: those from there on are lost. What
takes all values from a register up leaves nothing of them either. -/
@[simp] def base? (op : Opcode) (a b : Nat) : Option Nat :=
  match op with
  | .call | .tailCall => some a
  | .tForCall => some (a + 3)
  | .setList => if b = 0 then some (a + 1) else none
  | _ => none

/-- The ways that control may go on, each with the registers that are written only
if it is taken. -/
@[simp] def ways (op : Opcode) (a c : Nat) : List (Turn × List Span) :=
  match op with
  | .jmp | .forPrep => [(.jump, [])]
  | .forLoop => [(.next, []), (.jump, [.one (a + 3)])]
  | .tForLoop => [(.next, []), (.jump, [.one a])]
  | .eq | .lt | .le | .test => [(.next, []), (.skip, [])]
  | .testSet => [(.next, [.one a]), (.skip, [])]
  | .loadBool => [(if c = 0 then .next else .skip, [])]
  | .loadKx => [(.skip, [])]
  | .ret => []
  | _ => [(.next, [])]

/-- The lowest register whose upvalues a jump closes. -/
def closes? (op : Opcode) (a : Nat) : Option Nat :=
  if op = .jmp ∧ a ≠ 0 then some (a - 1) else none

/-- The constants that are named. -/
@[simp] def constants (op : Opcode) (b c bx : Nat) : List Nat :=
  match op with
  | .loadK => [bx]
  | .getTabUp | .getTable | .self => constantIn c
  | .setTabUp | .setTable | .add | .sub | .mul | .mod | .pow | .div | .idiv | .band | .bor | .bxor
  | .shl | .shr | .eq | .lt | .le => constantIn b ++ constantIn c
  | _ => []

/-- The upvalues that are named. -/
@[simp] def upvalues (op : Opcode) (a b : Nat) : List Nat :=
  match op with
  | .getUpval | .getTabUp | .setUpval => [b]
  | .setTabUp => [a]
  | _ => []

/-- The nested function that is named. -/
def nested? (op : Opcode) (bx : Nat) : Option Nat := if op = .closure then some bx else none

end Opcode

/-! ## Instructions -/

namespace Instruction

def reads (i : Instruction) : List Span := i.opcode?.elim [] fun op => op.reads i.a i.b i.c

def writes (i : Instruction) : List Span := i.opcode?.elim [] fun op => op.writes i.a i.b i.c

def base? (i : Instruction) : Option Nat := i.opcode?.bind fun op => op.base? i.a i.b

def ways (i : Instruction) : List (Turn × List Span) := i.opcode?.elim [] fun op => op.ways i.a i.c

def closes? (i : Instruction) : Option Nat := i.opcode?.bind fun op => op.closes? i.a

def constants (i : Instruction) : List Nat :=
  i.opcode?.elim [] fun op => op.constants i.b i.c i.bx

def upvalues (i : Instruction) : List Nat := i.opcode?.elim [] fun op => op.upvalues i.a i.b

def nested? (i : Instruction) : Option Nat := i.opcode?.bind fun op => op.nested? i.bx

/-- All registers that an instruction names, by an operand or as part of a row. -/
def registers (i : Instruction) : List Nat :=
  (i.reads ++ i.writes ++ i.ways.flatMap (·.2)).flatMap Span.known ++ i.closes?.toList

/-- The position that a turn leads to. -/
def target (i : Instruction) (pc : Nat) : Turn → Int
  | .next => pc + 1
  | .skip => pc + 2
  | .jump => pc + 1 + i.offset

/-- The positions that control may go on at. -/
def targets (i : Instruction) (pc : Nat) : List Int := i.ways.map fun w => i.target pc w.1

/-- All registers that are read have been written. -/
def Ready (i : Instruction) (K : Set Nat) : Prop := ∀ s ∈ i.reads, s.toSet ⊆ K

/-- What has been written once an instruction is done and control has gone on one
of its ways. -/
def after (i : Instruction) (extra : List Span) (K : Set Nat) : Set Nat :=
  {r | (r ∈ K ∧ ∀ base ∈ i.base?, r < base) ∨ ∃ s ∈ i.writes ++ extra, r ∈ s.toSet}

/-! An instruction does what the table says of its operation. -/

section

variable {i : Instruction} {op : Opcode} (h : i.opcode? = some op)

include h

theorem reads_eq : i.reads = op.reads i.a i.b i.c := by rw [reads, h]; rfl

theorem writes_eq : i.writes = op.writes i.a i.b i.c := by rw [writes, h]; rfl

theorem base?_eq : i.base? = op.base? i.a i.b := by rw [base?, h]; rfl

theorem ways_eq : i.ways = op.ways i.a i.c := by rw [ways, h]; rfl

theorem closes?_eq : i.closes? = op.closes? i.a := by rw [closes?, h]; rfl

theorem constants_eq : i.constants = op.constants i.b i.c i.bx := by rw [constants, h]; rfl

theorem upvalues_eq : i.upvalues = op.upvalues i.a i.b := by rw [upvalues, h]; rfl

theorem nested?_eq : i.nested? = op.nested? i.bx := by rw [nested?, h]; rfl

end

end Instruction

end LuaLowering
