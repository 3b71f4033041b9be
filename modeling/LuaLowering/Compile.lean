import LuaLowering.Lower

/-!
# Compiling a chunk

A chunk is compiled as a function that takes any arguments and whose one outer
variable is the table of globals. The outcome is a prototype or the reason why
there is none.
-/

namespace LuaLowering

open LowerM

/-- Lowers a chunk and finishes it. -/
def compileChunk (block : Block) : LowerM Prototype := do
  update ({ · with lastLineDefined := block.lastLine })
  writeBody [] block.lower block.lastLine
  let p ← finishFunction (← view id)
  record (.chunkFinished p)
  pure p

/-- The outcome of compiling a chunk and what happened on the way. -/
def compileTraced (block : Block) (o : Options := {}) : Except Stop Prototype × Array Event :=
  match compileChunk block (.main o) with
  | .ok p w => (.ok p, w.events)
  | .error e w => (.error e, w.events)

/-- Compiles a chunk. -/
def compile (block : Block) (o : Options := {}) : Except Stop Prototype :=
  (compileTraced block o).1

end LuaLowering
