import LuaLowering.Syntax

/-!
# The functions of a syntax tree

All functions of a tree in the order of the source, each before those inside it.
-/

namespace LuaLowering

mutual

def Expr.functions : Expr → List FunctionBody
  | .nil | .boolean _ | .vararg | .integer _ | .float _ | .string _ | .name _ => []
  | .paren inner => inner.functions
  | .call c => c.functions
  | .function f => f.functions
  | .table fields => Field.functions fields
  | .index table key => table.functions ++ key.functions
  | .unary _ e => e.functions
  | .binary _ left right => left.functions ++ right.functions
  | .concat operands => Expr.functionsIn operands

def Expr.functionsIn : List Expr → List FunctionBody
  | [] => []
  | e :: rest => e.functions ++ Expr.functionsIn rest

def Field.functions : List Field → List FunctionBody
  | [] => []
  | .item value :: rest => value.functions ++ Field.functions rest
  | .entry key value :: rest => key.functions ++ value.functions ++ Field.functions rest

def Call.functions : Call → List FunctionBody
  | ⟨callee, _, args, _⟩ => callee.functions ++ Expr.functionsIn args

/-- A function and all those inside it. -/
def FunctionBody.functions : FunctionBody → List FunctionBody
  | ⟨params, more, body, first, last⟩ => ⟨params, more, body, first, last⟩ :: body.functions

/-- The functions of a block. -/
def Block.functions : Block → List FunctionBody
  | ⟨stats, none, _⟩ => Stat.functionsIn stats
  | ⟨stats, some values, _⟩ => Stat.functionsIn stats ++ Expr.functionsIn values

def Stat.functionsIn : List Stat → List FunctionBody
  | [] => []
  | s :: rest => s.functions ++ Stat.functionsIn rest

def Stat.functions : Stat → List FunctionBody
  | .empty | .break _ | .label _ _ | .goto _ _ => []
  | .block body => body.functions
  | .call c => c.functions
  | .whileLoop cond body _ => cond.functions ++ body.functions
  | .repeatLoop body cond _ => body.functions ++ cond.functions
  | .ifChain arms => Branch.functions arms
  | .numericFor _ init limit (some step) body _ _ =>
    init.functions ++ limit.functions ++ step.functions ++ body.functions
  | .numericFor _ init limit none body _ _ => init.functions ++ limit.functions ++ body.functions
  | .genericFor _ values body _ => Expr.functionsIn values ++ body.functions
  | .assign targets values _ => Target.functions targets ++ Expr.functionsIn values
  | .declare _ values _ => Expr.functionsIn values
  | .declareFunction _ f => f.functions

def Branch.functions : List Branch → List FunctionBody
  | [] => []
  | ⟨cond, body, _⟩ :: rest => cond.functions ++ body.functions ++ Branch.functions rest

def Target.functions : List Target → List FunctionBody
  | [] => []
  | .name _ :: rest => Target.functions rest
  | .index table key :: rest => table.functions ++ key.functions ++ Target.functions rest

end

end LuaLowering
