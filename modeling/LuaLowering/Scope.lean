import LuaLowering.Scope.NameMap

/-!
# Locals, scopes and pending breaks

A scope is a stretch of source in which a local is visible. Leaving one ends
its locals; leaving the scope of a loop also settles the `break`s inside it,
which until then are jumps without a target.

A `break` may leave several scopes at once, and each of them may hold locals
that a closure has captured. The jump has to close all of those, so a pending
break collects, scope by scope, the lowest register to close. That register is
kept as a *close level*: one more than the register, with zero for nothing to
close.
-/

namespace LuaLowering

/-- A declared local variable. -/
structure Local where
  name : String
  /-- The register it lives in. -/
  slot : Nat
  /-- The first position at which the register holds the variable. -/
  startPc : Nat
  /-- The first position at which it no longer does. -/
  endPc : Nat
  /-- Whether a nested function refers to it. -/
  captured : Bool := false
  /-- The declaration of the same name that this one hides. -/
  shadowed : Option Nat := none
deriving DecidableEq, Repr

/-- Whether a local is named as the state of a loop is, with a parenthesis in front. No name in
a text begins so, but one in a syntax tree may. -/
def Local.isHidden (v : Local) : Bool := v.name.toList.head? == some '('

/-- A `break` whose loop is not finished yet. -/
structure OpenBreak where
  /-- Where its jump stands. -/
  pc : Nat
  /-- How many scopes lie around the innermost one it still has to leave. -/
  depth : Nat
  /-- The close level of the scopes left so far. -/
  close : Nat
deriving DecidableEq, Repr

/-- The close level of leaving two scopes. -/
def joinClose (a b : Nat) : Nat :=
  if a = 0 then b else if b = 0 then a else min a b

/-- The close level of leaving a scope with these locals. If any of them is
captured, the level is that of the lowest one that is not hidden. -/
def closeLevelOf (vars : List Local) : Nat :=
  if vars.any (·.captured) then
    match ((vars.filter fun v => !v.isHidden).map (·.slot)).min? with
    | some slot => slot + 1
    | none => 0
  else 0

/-- A scope that is still open. -/
structure Scope where
  /-- The indexes of the locals declared in it, the latest first. -/
  locals : List Nat := []
  /-- The breaks of a loop, the latest first; none for a scope that is not a
  loop. -/
  breaks : Option (List OpenBreak) := none
deriving DecidableEq, Repr

namespace Scope

/-- A scope as it is entered. -/
def opened (breakable : Bool) : Scope := { breaks := if breakable then some [] else none }

/-- Records a break with the innermost loop; fails if there is none. -/
def addBreak? (b : OpenBreak) : List Scope → Option (List Scope)
  | [] => none
  | s :: rest =>
    match s.breaks with
    | some bs => some ({ s with breaks := some (b :: bs) } :: rest)
    | none => (addBreak? b rest).map (s :: ·)

/-- What leaving a scope at `depth` means for a pending break: if it stands
inside, it now leaves from one scope further out, closing what that scope had
to close. -/
def raise (depth close : Nat) (b : OpenBreak) : OpenBreak :=
  if depth ≤ b.depth then { b with depth := depth - 1, close := joinClose b.close close } else b

/-- Raises the pending breaks of the innermost loop. -/
def raiseBreaks (depth close : Nat) : List Scope → List Scope
  | [] => []
  | s :: rest =>
    match s.breaks with
    | some bs => { s with breaks := some (bs.map (raise depth close)) } :: rest
    | none => s :: raiseBreaks depth close rest

end Scope

end LuaLowering
