import LuaLowering.Draft
import LuaLowering.Event

/-!
# The state of a compilation

Functions nest, so a compilation works on a stack of drafts: the function it
is writing, and around it the enclosing ones, which wait until it is finished.
The waiting ones are not frozen. A name that an inner function uses may turn
out to be a local of an outer one, and then the outer one learns that the local
is captured.

A step that fails keeps what it has done so far. That is how `EStateM` treats
its state, and here it is wanted: the state after a failure can be looked at.
-/

namespace LuaLowering

/-- The functions under construction and the record of what happened. -/
structure Workspace where
  options : Options
  /-- The function being written. -/
  draft : Draft
  /-- The functions around it, the nearest first. -/
  enclosing : List Draft := []
  events : Array Event := #[]

namespace Workspace

/-- A workspace for a main chunk. -/
def main (o : Options) : Workspace := { options := o, draft := .main o }

/-- A workspace for a function with nothing around it. -/
def fresh (o : Options) : Workspace := { options := o, draft := .fresh o }

/-- Starts a function inside the present one, at the same line. -/
def enter (w : Workspace) : Workspace :=
  { w with
    draft := { Draft.fresh w.options with line := w.draft.line }
    enclosing := w.draft :: w.enclosing }

/-- Goes back to the enclosing function. -/
def leave (w : Workspace) : Workspace :=
  match w.enclosing with
  | [] => w
  | d :: rest => { w with draft := d, enclosing := rest }

end Workspace

/-- A step of a compilation. -/
abbrev LowerM := EStateM Stop Workspace

namespace LowerM

/-- Reads off the function being written. -/
@[inline] def view {α : Type} (f : Draft → α) : LowerM α := fun w => .ok (f w.draft) w

/-- Changes the function being written. -/
@[inline] def update (f : Draft → Draft) : LowerM Unit := fun w =>
  .ok () { w with draft := f w.draft }

/-- The options of the compilation. -/
@[inline] def options : LowerM Options := fun w => .ok w.options w

/-- Records an event. -/
@[inline] def record (e : Event) : LowerM Unit := fun w =>
  .ok () { w with events := w.events.push e }

/-- Ends the compilation with a verdict on the chunk. -/
@[inline] def reject {α : Type} (e : Rejection) : LowerM α := fun w => .error (.rejected e) w

/-- Stops at a step outside the builder's contract. -/
@[inline] def misuse {α : Type} (m : Misuse) : LowerM α := fun w => .error (.misused m) w

/-- Runs a step on a function nested in the present one and hands that function
over. The present one is back afterwards even if the step fails. -/
def nested {α : Type} (body : LowerM α) : LowerM (Draft × α) := fun w =>
  match body w.enter with
  | .ok x inner => .ok (inner.draft, x) inner.leave
  | .error e inner => .error e inner.leave

end LowerM

end LuaLowering
