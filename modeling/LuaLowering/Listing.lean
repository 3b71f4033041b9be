import LuaLowering.Decimal.Text
import LuaLowering.Instruction.Text
import LuaLowering.Prototype
import LuaLowering.Text.Quoted
import LuaLowering.Word

/-!
# Listings

A prototype as text: a header, the instructions with their source lines, the
constants, the locals and the upvalues, and then the nested functions in the
same form. Positions and constants are counted from one; locals and upvalues
from zero.
-/

namespace LuaLowering

/-- A constant in a listing. -/
def Constant.text : Constant → String
  | .nil => "nil"
  | .boolean b => if b then "true" else "false"
  | .integer n => n.toInt.repr
  | .float x => x.text
  | .string s => Text.quote s

namespace Listing

/-- The two header lines of a function. -/
def header (p : Prototype) : List String :=
  let kind := if p.lineDefined = 0 then "main" else "function"
  let source := if p.source.isEmpty then "?" else p.source
  let first := p.lineDefined
  let last := p.lastLineDefined
  let size := p.code.size
  let params := p.numParams.toNat
  let more := if p.isVararg then "+" else ""
  let slots := p.maxStackSize.toNat
  let upvalues := p.upvalues.length
  let locals := p.locals.length
  let constants := p.constants.size
  let functions := p.protos.length
  [ s!"{kind} <{source}:{first},{last}> ({size} instructions)",
    s!"{params}{more} params, {slots} slots, {upvalues} upvalues, {locals} locals, " ++
      s!"{constants} constants, {functions} functions" ]

/-- The line of the instruction at `pc`. -/
def instruction (p : Prototype) (pc : Nat) (i : Instruction) : String :=
  let position := pc + 1
  let line := p.lineOf pc
  let mark := if line = 0 then "-" else line.repr
  let text := i.text
  s!"\t{position}\t[{mark}]\t{text}"

/-- The line of the constant at an index. -/
def constant (i : Nat) (k : Constant) : String :=
  let position := i + 1
  let text := k.text
  s!"\t{position}\t{text}"

/-- The line of the local at an index. -/
def localEntry (i : Nat) (v : LocalEntry) : String :=
  let name := v.name
  let start := v.startPc + 1
  let past := v.endPc + 1
  s!"\t{i}\t{name}\t{start}\t{past}"

/-- The line of the upvalue at an index. -/
def upvalue (i : Nat) (u : Upvalue) : String :=
  let name := if u.name.isEmpty then "-" else u.name
  let inStack := if u.inStack then 1 else 0
  let index := u.index.toNat
  s!"\t{i}\t{name}\t{inStack}\t{index}"

/-- A table with its title. -/
def titled (title : String) (rows : List String) : List String :=
  let size := rows.length
  s!"{title} ({size}):" :: rows

/-- The lines of one function, without those nested in it. An empty line comes
first. -/
def own (p : Prototype) : List String :=
  "" :: header p ++ p.code.toList.mapIdx (instruction p) ++
    titled "constants" (p.constants.toList.mapIdx constant) ++
    titled "locals" (p.locals.mapIdx localEntry) ++
    titled "upvalues" (p.upvalues.mapIdx upvalue)

end Listing

/-- The listing of a function and all those nested in it. -/
def Prototype.listing (p : Prototype) : String :=
  String.join ((p.family.flatMap Listing.own).map (· ++ "\n"))

/-- Whether the positions of the locals can be counted from one in words. -/
def Prototype.canList (p : Prototype) : Bool :=
  p.family.all fun q => q.locals.all fun v =>
    Word.fits (v.startPc + 1) && Word.fits (v.endPc + 1)

/-- The listing, where the positions of the locals may be any words. -/
def Prototype.listing? (p : Prototype) : Option String :=
  if p.canList then some p.listing else none

end LuaLowering
