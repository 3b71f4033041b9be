import LuaLowering.Options
import LuaLowering.Prototype
import LuaLowering.Registers
import LuaLowering.Scope

/-!
# A function under construction

One `Draft` belongs to each function being compiled. It holds the code emitted
so far, the tables that will go into the prototype, the registers in use and
the open scopes.

Names resolve through two records that have to agree: `visible` says which
declaration of a name counts now, and each declaration remembers the one it
hides, so that leaving a scope can bring that one back.
-/

namespace LuaLowering

/-- An outer variable that a function under construction refers to. -/
structure Capture where
  name : String
  /-- In a register of the enclosing function, rather than among its own
  upvalues. -/
  inStack : Bool
  index : Nat
deriving DecidableEq, Repr

/-- A function under construction. -/
structure Draft where
  registers : Registers
  /-- The open scopes, the innermost first. -/
  scopes : List Scope := [{}]
  /-- Every local ever declared, in the order of the declarations. -/
  locals : Array Local := #[]
  /-- Which local each visible name stands for. -/
  visible : NameMap := []
  upvalues : Array Capture := #[]
  constants : Array Constant := #[]
  nested : Array Prototype := #[]
  code : Array Instruction := #[]
  /-- The source line of each instruction. -/
  lines : Array Nat := #[]
  /-- The line of the construct being lowered. -/
  line : Nat := 0
  isMain : Bool := false
  paramCount : Nat := 0
  isVararg : Bool := false
  lineDefined : Nat := 0
  lastLineDefined : Nat := 0

namespace Draft

/-- A function with nothing in it yet but its outermost scope. -/
def fresh (o : Options) : Draft := { registers := { limit := o.registerLimit } }

/-- A main chunk: it takes any arguments, and its one outer variable is the
table of globals. -/
def main (o : Options) : Draft :=
  { fresh o with
    isMain := true, isVararg := true,
    upvalues := #[{ name := "_ENV", inStack := true, index := 0 }] }

/-- The position of the next instruction. -/
def pc (d : Draft) : Nat := d.code.size

/-- A position as a signed number. Up to the end of the code it is what it
says; further out it is a word read as a signed number. -/
def signed (d : Draft) (position : Nat) : Int :=
  if position ≤ d.pc then position else Word.toSigned position

/-- The offset that a jump from one position to another would have. It counts
from the instruction after the jump. -/
def offset (d : Draft) (origin target : Nat) : Int := d.signed target - d.signed origin - 1

theorem signed_of_le {d : Draft} {position : Nat} (h : position ≤ d.pc) :
    d.signed position = position := if_pos h

/-- Between positions of the code the offset is the plain difference. -/
theorem offset_of_le {d : Draft} {origin target : Nat} (ho : origin ≤ d.pc)
    (ht : target ≤ d.pc) : d.offset origin target = target - origin - 1 := by
  rw [offset, signed_of_le ho, signed_of_le ht]

/-- The number of open scopes. -/
def depth (d : Draft) : Nat := d.scopes.length

/-- Appends an instruction. -/
def emit (d : Draft) (line : Nat) (i : Instruction) : Draft :=
  { d with code := d.code.push i, lines := d.lines.push line }

/-- Replaces the instruction at a position. -/
def setCode (d : Draft) (pc : Nat) (i : Instruction) : Draft :=
  { d with code := d.code.setIfInBounds pc i }

/-- Makes a name stand for a new local of the innermost scope. -/
def declare (d : Draft) (x : String) (slot startPc : Nat) : Draft :=
  let i := d.locals.size
  let entry : Local :=
    { name := x, slot, startPc, endPc := startPc, shadowed := d.visible.find? x }
  { d with
    locals := d.locals.push entry
    visible := d.visible.insert x i
    scopes := match d.scopes with
      | [] => []
      | s :: rest => { s with locals := i :: s.locals } :: rest }

/-- Ends the local at an index, and brings back the one it hid. -/
def endLocal (d : Draft) (i : Nat) (v : Local) (endPc : Nat) : Draft :=
  { d with
    locals := d.locals.setIfInBounds i { v with endPc := max endPc v.startPc }
    visible := d.visible.restore v.name v.shadowed }

/-- Marks the local at an index as captured. -/
def capture (d : Draft) (i : Nat) : Draft :=
  { d with locals := d.locals.modify i fun v => { v with captured := true } }

/-- Moves the ends of `count` locals, from the one at `first`, further out. -/
def prolongLocals (d : Draft) (first count delta : Nat) : Draft :=
  { d with
    locals := (List.range' first count).foldl
      (fun locals i => locals.modify i fun v => { v with endPc := v.endPc + delta }) d.locals }

/-- The finished function. -/
def finish (d : Draft) (o : Options) : Prototype where
  source := if d.isMain then o.chunkName else ""
  lineDefined := d.lineDefined
  lastLineDefined := d.lastLineDefined
  numParams := .ofNat d.paramCount
  isVararg := d.isVararg
  maxStackSize := .ofNat (max d.registers.peak 2)
  code := d.code
  constants := d.constants
  upvalues := d.upvalues.toList.map fun u =>
    { inStack := u.inStack, index := .ofNat u.index, name := if o.strip then "" else u.name }
  protos := d.nested.toList
  lines := if o.strip then #[] else d.lines
  locals :=
    if o.strip then []
    else d.locals.toList.map fun v => ⟨v.name, v.slot, v.startPc, v.endPc⟩

end Draft

end LuaLowering
