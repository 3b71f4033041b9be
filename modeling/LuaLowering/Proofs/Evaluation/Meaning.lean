import LuaLowering.Proofs.Evaluation.Machine

/-!
# What an expression means

An expression without calls, functions, table constructors and floats has a value
wherever the names in it do, as far as the operators are defined. `and` and `or` look at
their right operand only when the left one does not decide, so a value may exist although
a part of the expression has none.

A name stands for a visible local, or else for a variable of a function further out, or
else for a field of the table of globals. Which of these it is depends on the functions
under construction alone, and is said here without regard to how they are searched.
-/

namespace LuaLowering

variable {V H : Type}

/-- What the names of an expression stand for. -/
structure Environment (V H : Type) where
  /-- The visible locals. -/
  local? : String → Option V
  /-- The variables of functions further out. -/
  outer? : String → Option V
  heap : H

namespace Environment

/-- The table of globals is the variable `_ENV`. -/
def globals? (ρ : Environment V H) : Option V := (ρ.local? "_ENV").or (ρ.outer? "_ENV")

/-- The value of a name. -/
def read? (I : Interpretation V H) (ρ : Environment V H) (x : String) : Option V :=
  match ρ.local? x with
  | some v => some v
  | none =>
    match ρ.outer? x with
    | some v => some v
    | none => do I.index ρ.heap (← ρ.globals?) (I.constant (.string x))

end Environment

mutual

/-- The value of an expression. -/
def Expr.value? (I : Interpretation V H) (ρ : Environment V H) : Expr → Option V
  | .nil => some (I.constant .nil)
  | .boolean b => some (I.boolean b)
  | .integer n => some (I.constant (.integer n))
  | .string s => some (I.constant (.string s))
  | .name x => ρ.read? I x
  | .paren e => e.value? I ρ
  | .index t k => do I.index ρ.heap (← t.value? I ρ) (← k.value? I ρ)
  | .unary op e => do I.unary op (← e.value? I ρ)
  | .binary .and left right => do
    let l ← left.value? I ρ
    if I.truthy l then right.value? I ρ else some l
  | .binary .or left right => do
    let l ← left.value? I ρ
    if I.truthy l then some l else right.value? I ρ
  | .binary op left right => do I.strict op (← left.value? I ρ) (← right.value? I ρ)
  | .concat operands => do I.concat (← Expr.values? I ρ operands)
  | _ => none

/-- The values of expressions. -/
def Expr.values? (I : Interpretation V H) (ρ : Environment V H) : List Expr → Option (List V)
  | [] => some []
  | e :: rest => do
    let v ← e.value? I ρ
    let vs ← Expr.values? I ρ rest
    some (v :: vs)

end

/-- The expressions that the machine can evaluate. -/
inductive Expr.Simple : Expr → Prop
  | nil : Simple .nil
  | boolean (b : Bool) : Simple (.boolean b)
  | integer (n : Int64) : Simple (.integer n)
  | string (s : String) : Simple (.string s)
  | name (x : String) : Simple (.name x)
  | paren {e : Expr} (h : Simple e) : Simple (.paren e)
  | index {table key : Expr} (ht : Simple table) (hk : Simple key) : Simple (.index table key)
  | unary (op : UnaryOp) {e : Expr} (h : Simple e) : Simple (.unary op e)
  | binary (op : BinaryOp) {left right : Expr} (hl : Simple left) (hr : Simple right) :
      Simple (.binary op left right)
  | concat {operands : List Expr} (hne : operands ≠ []) (h : ∀ e ∈ operands, Simple e) :
      Simple (.concat operands)

/-! ## Names of functions under construction -/

/-- Whether a name stands for a variable of a function further out. -/
def Draft.knows (x : String) : Draft → List Draft → Bool
  | d, [] => d.upvalues.any (·.name == x)
  | d, parent :: rest =>
    d.upvalues.any (·.name == x) || (parent.visible.find? x).isSome || parent.knows x rest

namespace Workspace

/-- The register of the local that a name stands for. -/
def slot? (w : Workspace) (x : String) : Option Nat := do
  let i ← w.draft.visible.find? x
  (w.draft.locals[i]?).map (·.slot)

def knows (w : Workspace) (x : String) : Bool := w.draft.knows x w.enclosing

/-- What names stand for, given the registers and the values of outer variables. -/
def environment (w : Workspace) (regs : Nat → V) (outer : String → V) (heap : H) :
    Environment V H where
  local? x := (w.slot? x).map regs
  outer? x := if w.knows x then some (outer x) else none
  heap := heap

end Workspace

end LuaLowering
