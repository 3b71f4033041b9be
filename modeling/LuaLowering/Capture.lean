import LuaLowering.Draft

/-!
# Capturing outer variables

A function may refer to a local of any function around it. The machine only
lets a closure take over what the function directly around it has, so a
variable from further out is handed in level by level: every function on the
way keeps it among its own upvalues.
-/

namespace LuaLowering

/-- The most outer variables one function may capture. -/
def maxUpvalues : Nat := 255

/-- What looking for an outer variable gives: its index among the upvalues, if
there is such a variable, and the functions as they are afterwards. -/
structure Resolution where
  index : Except Stop (Option Nat)
  draft : Draft
  enclosing : List Draft

/-- Adds an outer variable to a function, unless it has too many. -/
def Draft.addCapture (d : Draft) (c : Capture) (enclosing : List Draft) : Resolution :=
  if d.upvalues.size < maxUpvalues then
    ⟨.ok (some d.upvalues.size), { d with upvalues := d.upvalues.push c }, enclosing⟩
  else ⟨.error (.rejected (.upvaluesExhausted maxUpvalues d.line)), d, enclosing⟩

/-- Looks for a name among the outer variables of a function. A name that the
function does not refer to yet is looked for in the enclosing one: first among
its visible locals, then among its own outer variables. Every function on the
way comes to refer to it. -/
def Draft.resolve (x : String) (d : Draft) (enclosing : List Draft) : Resolution :=
  match d.upvalues.toList.findIdx? (·.name == x) with
  | some i => ⟨.ok (some i), d, enclosing⟩
  | none =>
    match enclosing with
    | [] => ⟨.ok none, d, []⟩
    | parent :: rest =>
      match parent.visible.find? x with
      | some i =>
        match parent.locals[i]? with
        | some v => d.addCapture ⟨x, true, v.slot⟩ (parent.capture i :: rest)
        | none => ⟨.error (.misused (.noLocalAt i)), d, enclosing⟩
      | none =>
        let outer := parent.resolve x rest
        match outer.index with
        | .ok (some i) => d.addCapture ⟨x, false, i⟩ (outer.draft :: outer.enclosing)
        | .ok none => ⟨.ok none, d, outer.draft :: outer.enclosing⟩
        | .error e => ⟨.error e, d, outer.draft :: outer.enclosing⟩

end LuaLowering
