import LuaLowering.Operand

/-!
# Lists of values

Lua adjusts a list of expressions to the number of values wanted: each
expression gives one value, except that a call or `...` at the end gives as
many as are missing. What is still missing after that is nil.
-/

namespace LuaLowering

open LowerM

/-- Whether the last source of a list can give any number of values. -/
def expands (sources : List Source) : Bool :=
  match sources.getLast? with
  | some s => s.exp.isMulti
  | none => false

/-- Loads each source into a fresh register: one value of each, and
`lastWant` of the last. -/
def loadEach (lastWant : Int) : List Source → LowerM Unit
  | [] => pure ()
  | [s] => do
    let r ← takeRegister
    s.load r lastWant
  | s :: rest => do
    let r ← takeRegister
    s.load r 1
    loadEach lastWant rest

/-- Loads a list of which all values are wanted, and gives their number. -/
def loadAll (sources : List Source) : LowerM Int := do
  if expands sources then
    loadEach allValues sources
    pure allValues
  else
    loadEach 1 sources
    pure sources.length

/-- A list without the literal nils at its end. -/
def withoutTailNils (sources : List Source) : List Source :=
  (sources.reverse.dropWhile (·.exp.isNil)).reverse

/-- Loads a list so that `n` values stand in fresh registers. The nils that end
the list are not loaded one by one: filling up covers them. A call or `...`
beyond the values wanted is run for its effect only. -/
def loadAdjusted (n : Nat) (sources : List Source) (line : Nat) : LowerM Unit := do
  let sources := withoutTailNils sources
  let given := sources.length
  if n ≤ given then
    loadEach (if n < given ∧ expands sources then 0 else 1) sources
  else if expands sources then
    let missing := n - given
    loadEach (missing + 1) sources
    let _ ← takeRegisters missing
  else
    let missing := n - given
    loadEach 1 sources
    let first ← takeRegisters missing
    Emit.loadNil line first missing

end LuaLowering
