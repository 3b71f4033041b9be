/-!
# Why a compilation stops

Two kinds of failure are kept apart. A `Rejection` is a verdict on the
chunk: it uses a construct that has no lowering, or it needs more than the
machine provides. It carries the line it is reported at, and any of them ends
the whole compilation.

A `Misuse` is a step taken outside the contract of the code builder, such as
giving registers back out of order. No chunk should ever bring one about; it
can only come from driving the builder by hand. Keeping it as a value, rather
than letting the operation do something arbitrary, is what makes "the compiler
never does this" a statement.
-/

namespace LuaLowering

/-- The statements that have no lowering. -/
inductive Unsupported where
  | label | goto
deriving DecidableEq, Repr

def Unsupported.word : Unsupported → String
  | .label => "label"
  | .goto => "goto"

/-- A verdict on the chunk being compiled. -/
inductive Rejection where
  | unsupported (construct : Unsupported) (line : Nat)
  /-- A `break` with no loop around it in the same function. -/
  | strayBreak (line : Nat)
  /-- More registers live at once than `limit`. -/
  | registersExhausted (limit line : Nat)
  /-- A function captures more than `limit` outer variables. -/
  | upvaluesExhausted (limit line : Nat)
  /-- A jump reaches further than its offset field. -/
  | jumpTooFar (line : Nat)
  /-- A global is used where no `_ENV` is visible. -/
  | noGlobals (line : Nat)
deriving DecidableEq, Repr

namespace Rejection

/-- The source line a rejection is reported at. -/
def line : Rejection → Nat
  | unsupported _ line | strayBreak line | registersExhausted _ line
  | upvaluesExhausted _ line | jumpTooFar line | noGlobals line => line

/-- The text shown for a rejection. -/
def message : Rejection → String
  | unsupported construct line =>
    let word := construct.word
    s!"line {line}: {word} statements are not supported"
  | strayBreak line => s!"line {line}: <break> not inside a loop"
  | registersExhausted limit line =>
    s!"line {line}: function or expression needs more than {limit} registers"
  | upvaluesExhausted limit line => s!"line {line}: function captures more than {limit} upvalues"
  | jumpTooFar line => s!"line {line}: control structure too long"
  | noGlobals line => s!"line {line}: global access with no _ENV in scope"

end Rejection

/-- A step outside the contract of the code builder. -/
inductive Misuse where
  /-- A register is released that is not the last one taken. -/
  | releaseOutOfOrder (register used : Nat)
  /-- More registers are freed than are live. -/
  | freeBeyondUsed (count used : Nat)
  /-- Registers are freed down to a mark above those live. -/
  | markAboveUsed (mark used : Nat)
  /-- An instruction is changed where there is none. -/
  | noInstructionAt (pc : Nat)
  /-- A local is looked up that was never declared. -/
  | noLocalAt (index : Nat)
  /-- A range of locals is changed that is not within the table. -/
  | noLocalsBetween (first past : Nat)
  /-- A position or count is taken `back` places before zero. -/
  | beforeZero (value back : Nat)
  /-- A value count has no successor in 32 signed bits. -/
  | countTooLarge (count : Int)
  /-- A biased jump offset does not fit in 32 signed bits. -/
  | offsetTooLarge (offset : Int)
  /-- A position, count or size has to go past the last word. -/
  | pastWord (value : Nat)
  /-- Two positions are too far apart for their distance to be a signed word. -/
  | tooFarApart (origin target : Nat)
deriving DecidableEq, Repr

/-- Why a lowering step did not finish. -/
inductive Stop where
  | rejected (why : Rejection)
  | misused (how : Misuse)
deriving DecidableEq, Repr

end LuaLowering
