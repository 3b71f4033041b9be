import LuaLowering.Listing

/-!
# What happens during a compilation

A compilation leaves a record of its steps: scopes entered and left, jumps
given their targets, functions finished and, at the end, the listing of the
whole chunk. An event keeps what happened; its wording is made only when
someone asks.
-/

namespace LuaLowering

/-- How detailed an event is. -/
inductive Level where
  | debug | trace
deriving DecidableEq, Repr

def Level.name : Level → String
  | .debug => "DEBUG"
  | .trace => "TRACE"

/-- A step of a compilation. -/
inductive Event where
  /-- A scope was entered; `depth` counts it. -/
  | scopeOpened (depth : Nat) (breakable : Bool)
  /-- A scope was left; `depth` counts it. -/
  | scopeClosed (depth endPc : Nat)
  | jumpPatched (pc target : Nat)
  | breakPatched (pc target close : Nat)
  | functionFinished (p : Prototype)
  | chunkFinished (p : Prototype)

namespace Event

def level : Event → Level
  | functionFinished _ => .debug
  | _ => .trace

/-- The wording of an event. -/
def message : Event → String
  | scopeOpened depth breakable =>
    let flag := if breakable then "true" else "false"
    s!"enter scope depth={depth} breakable={flag}"
  | scopeClosed depth endPc => s!"exit scope depth={depth} end_pc={endPc}"
  | jumpPatched pc target => s!"patched jump at pc={pc} -> {target}"
  | breakPatched pc target close => s!"patched break at pc={pc} -> {target} close={close}"
  | functionFinished p =>
    let source := p.source
    let line := p.lineDefined
    let code := p.code.size
    let constants := p.constants.size
    let upvalues := p.upvalues.length
    let stack := p.maxStackSize.toNat
    s!"finished function <{source}:{line}> code={code} constants={constants} " ++
      s!"upvalues={upvalues} stack={stack}"
  | chunkFinished p => p.listing

end Event

end LuaLowering
