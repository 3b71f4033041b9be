import LuaLowering.Syntax

/-!
# A property of every statement

What holds of each statement of a syntax tree, however deep it stands in blocks,
arms, loops or functions.
-/

namespace LuaLowering

mutual

/-- Every statement in an expression has a property. -/
def Expr.Every (P : Stat → Prop) : Expr → Prop
  | .nil | .boolean _ | .vararg | .integer _ | .float _ | .string _ | .name _ => True
  | .paren inner => inner.Every P
  | .call c => c.Every P
  | .function f => f.Every P
  | .table fields => Field.Every P fields
  | .index table key => table.Every P ∧ key.Every P
  | .unary _ e => e.Every P
  | .binary _ left right => left.Every P ∧ right.Every P
  | .concat operands => Expr.EveryIn P operands

def Expr.EveryIn (P : Stat → Prop) : List Expr → Prop
  | [] => True
  | e :: rest => e.Every P ∧ Expr.EveryIn P rest

def Field.Every (P : Stat → Prop) : List Field → Prop
  | [] => True
  | .item value :: rest => value.Every P ∧ Field.Every P rest
  | .entry key value :: rest => key.Every P ∧ value.Every P ∧ Field.Every P rest

def Call.Every (P : Stat → Prop) : Call → Prop
  | ⟨callee, _, args, _⟩ => callee.Every P ∧ Expr.EveryIn P args

/-- Every statement of a function has a property. -/
def FunctionBody.Every (P : Stat → Prop) : FunctionBody → Prop
  | ⟨_, _, body, _, _⟩ => body.Every P

/-- Every statement of a block has a property. -/
def Block.Every (P : Stat → Prop) : Block → Prop
  | ⟨stats, result, _⟩ => Stat.EveryIn P stats ∧
    match result with
    | none => True
    | some values => Expr.EveryIn P values

def Stat.EveryIn (P : Stat → Prop) : List Stat → Prop
  | [] => True
  | s :: rest => s.Every P ∧ Stat.EveryIn P rest

/-- A statement and every one inside it have a property. -/
def Stat.Every (P : Stat → Prop) : Stat → Prop
  | .empty => P .empty
  | .break line => P (.break line)
  | .label name line => P (.label name line)
  | .goto name line => P (.goto name line)
  | .block body => P (.block body) ∧ body.Every P
  | .call c => P (.call c) ∧ c.Every P
  | .whileLoop cond body line => P (.whileLoop cond body line) ∧ cond.Every P ∧ body.Every P
  | .repeatLoop body cond line => P (.repeatLoop body cond line) ∧ body.Every P ∧ cond.Every P
  | .ifChain arms => P (.ifChain arms) ∧ Branch.Every P arms
  | .numericFor var init limit step body forLine doLine =>
    P (.numericFor var init limit step body forLine doLine) ∧ init.Every P ∧ limit.Every P ∧
      (match step with
        | some e => e.Every P
        | none => True) ∧ body.Every P
  | .genericFor names values body doLine =>
    P (.genericFor names values body doLine) ∧ Expr.EveryIn P values ∧ body.Every P
  | .assign targets values line =>
    P (.assign targets values line) ∧ Target.Every P targets ∧ Expr.EveryIn P values
  | .declare names values line => P (.declare names values line) ∧ Expr.EveryIn P values
  | .declareFunction x f => P (.declareFunction x f) ∧ f.Every P

def Branch.Every (P : Stat → Prop) : List Branch → Prop
  | [] => True
  | ⟨cond, body, _⟩ :: rest => cond.Every P ∧ body.Every P ∧ Branch.Every P rest

def Target.Every (P : Stat → Prop) : List Target → Prop
  | [] => True
  | .name _ :: rest => Target.Every P rest
  | .index table key :: rest => table.Every P ∧ key.Every P ∧ Target.Every P rest

end

/-- A generic `for` gives a name to at least one of the values it iterates over. -/
def Stat.Iterates : Stat → Prop
  | .genericFor names _ _ _ => names ≠ []
  | _ => True

end LuaLowering
