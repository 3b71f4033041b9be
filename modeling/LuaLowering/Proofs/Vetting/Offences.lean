import LuaLowering.Error
import LuaLowering.Syntax

/-!
# Statements that have no place in a chunk

A label and a `goto` have no lowering, and a `break` has none unless a loop of
the same function is around it. This is all that the source alone can do wrong.
The other rejections depend on how much code the chunk needs: they are limits.

Offences are listed in the order of the source, so that the first one says what a
compilation has to report.
-/

namespace LuaLowering

/-- A rejection for needing more than the machine provides. -/
def Rejection.IsLimit : Rejection → Prop
  | .registersExhausted _ _ | .upvaluesExhausted _ _ | .jumpTooFar _ => True
  | .unsupported _ _ | .strayBreak _ | .noGlobals _ => False

/-- A statement that has no place where it stands, with its line. -/
inductive Offence where
  | unsupported (construct : Unsupported) (line : Nat)
  | strayBreak (line : Nat)
deriving DecidableEq, Repr

/-- The rejection that an offence calls for. -/
def Offence.rejection : Offence → Rejection
  | unsupported construct line => .unsupported construct line
  | strayBreak line => .strayBreak line

theorem Offence.rejection_injective {o o' : Offence} (h : o.rejection = o'.rejection) : o = o' := by
  cases o <;> cases o' <;> simp_all [rejection]

theorem Offence.not_isLimit (o : Offence) : ¬ o.rejection.IsLimit := by
  cases o <;> exact id

theorem Offence.rejection_ne_noGlobals (o : Offence) (line : Nat) :
    o.rejection ≠ .noGlobals line := by
  cases o <;> simp [rejection]

mutual

/-- The offences inside the functions of an expression. -/
def Expr.offences : Expr → List Offence
  | .nil | .boolean _ | .vararg | .integer _ | .float _ | .string _ | .name _ => []
  | .paren inner => inner.offences
  | .call c => c.offences
  | .function f => f.offences
  | .table fields => Field.offences fields
  | .index table key => table.offences ++ key.offences
  | .unary _ e => e.offences
  | .binary _ left right => left.offences ++ right.offences
  | .concat operands => Expr.offencesIn operands

def Expr.offencesIn : List Expr → List Offence
  | [] => []
  | e :: rest => e.offences ++ Expr.offencesIn rest

def Field.offences : List Field → List Offence
  | [] => []
  | .item value :: rest => value.offences ++ Field.offences rest
  | .entry key value :: rest => key.offences ++ (value.offences ++ Field.offences rest)

def Call.offences : Call → List Offence
  | ⟨callee, _, args, _⟩ => callee.offences ++ Expr.offencesIn args

/-- The offences of a function. The loops around it do not count inside. -/
def FunctionBody.offences : FunctionBody → List Offence
  | ⟨_, _, body, _, _⟩ => body.offences false

/-- The offences of a block, which may be inside a loop. -/
def Block.offences (loop : Bool) : Block → List Offence
  | ⟨stats, none, _⟩ => Stat.offencesIn loop stats
  | ⟨stats, some values, _⟩ => Stat.offencesIn loop stats ++ Expr.offencesIn values

def Stat.offencesIn (loop : Bool) : List Stat → List Offence
  | [] => []
  | s :: rest => s.offences loop ++ Stat.offencesIn loop rest

/-- The offences of a statement, which may be inside a loop. -/
def Stat.offences (loop : Bool) : Stat → List Offence
  | .empty => []
  | .break line => if loop then [] else [.strayBreak line]
  | .label _ line => [.unsupported .label line]
  | .goto _ line => [.unsupported .goto line]
  | .block body => body.offences loop
  | .call c => c.offences
  | .whileLoop cond body _ => cond.offences ++ body.offences true
  | .repeatLoop body cond _ => body.offences true ++ cond.offences
  | .ifChain arms => Branch.offences loop arms
  | .numericFor _ init limit (some step) body _ _ =>
    init.offences ++ (limit.offences ++ step.offences) ++ body.offences true
  | .numericFor _ init limit none body _ _ => init.offences ++ limit.offences ++ body.offences true
  | .genericFor _ values body _ => Expr.offencesIn values ++ body.offences true
  | .assign targets values _ => Target.offences targets ++ Expr.offencesIn values
  | .declare _ values _ => Expr.offencesIn values
  | .declareFunction _ f => f.offences

def Branch.offences (loop : Bool) : List Branch → List Offence
  | [] => []
  | ⟨cond, body, _⟩ :: rest => cond.offences ++ (body.offences loop ++ Branch.offences loop rest)

def Target.offences : List Target → List Offence
  | [] => []
  | .name _ :: rest => Target.offences rest
  | .index table key :: rest => table.offences ++ (key.offences ++ Target.offences rest)

end

end LuaLowering
