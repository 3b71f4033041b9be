import LuaLowering.Binary64

/-!
# The syntax tree of a Lua chunk

What a parser hands over. The tree keeps a line only where the generated code
needs one, so most expressions have none: they are lowered at the line of the
statement or call around them.

Statements and expressions refer to each other through function bodies, so
the types form one mutual block. Lists are ordinary `List`s, which is what
lets every pass over the tree be structural recursion.
-/

namespace LuaLowering

/-- The operators with one operand. -/
inductive UnaryOp where
  | minus | not | length | bitNot
deriving DecidableEq, Repr

/-- The operators with two operands. Concatenation is not among them: a run of
concatenations is one expression with many operands. -/
inductive BinaryOp where
  | add | sub | mul | div | floorDiv | mod | pow
  | bitAnd | bitOr | bitXor | shiftLeft | shiftRight
  | eq | ne | lt | le | gt | ge
  | and | or
deriving DecidableEq, Repr

mutual

/-- An expression. -/
inductive Expr where
  | nil
  | boolean (value : Bool)
  | vararg
  | integer (value : Int64)
  | float (value : Binary64)
  | string (value : String)
  | name (x : String)
  /-- A parenthesised expression, which has exactly one value. -/
  | paren (inner : Expr)
  | call (c : Call)
  | function (f : FunctionBody)
  | table (fields : List Field)
  | index (table key : Expr)
  | unary (op : UnaryOp) (operand : Expr)
  | binary (op : BinaryOp) (left right : Expr)
  | concat (operands : List Expr)

/-- A function call, or a method call when `method` is given. -/
structure Call where
  callee : Expr
  method : Option String
  args : List Expr
  line : Nat

/-- A field of a table constructor. -/
inductive Field where
  /-- A positional field, stored at the next integer index. -/
  | item (value : Expr)
  | entry (key value : Expr)

/-- A function with its parameters; `lastLine` is the line of its `end`. -/
structure FunctionBody where
  params : List String
  isVararg : Bool
  body : Block
  line : Nat
  lastLine : Nat

/-- Statements and, if the block ends in one, the values of its `return`. -/
structure Block where
  stats : List Stat
  result : Option (List Expr)
  lastLine : Nat

/-- A statement. -/
inductive Stat where
  | empty
  | break (line : Nat)
  | label (name : String) (line : Nat)
  | goto (name : String) (line : Nat)
  | block (body : Block)
  | call (c : Call)
  | whileLoop (cond : Expr) (body : Block) (line : Nat)
  | repeatLoop (body : Block) (cond : Expr) (line : Nat)
  /-- The arms of an `if`; an `else` is a last arm whose condition is `true`. -/
  | ifChain (arms : List Branch)
  | numericFor (var : String) (init limit : Expr) (step : Option Expr) (body : Block)
      (forLine doLine : Nat)
  | genericFor (names : List String) (values : List Expr) (body : Block) (doLine : Nat)
  | assign (targets : List Target) (values : List Expr) (line : Nat)
  | declare (names : List String) (values : List Expr) (line : Nat)
  | declareFunction (name : String) (f : FunctionBody)

/-- One arm of an `if`. -/
structure Branch where
  cond : Expr
  body : Block
  line : Nat

/-- The left-hand side of an assignment. -/
inductive Target where
  | name (x : String)
  | index (table key : Expr)

end

/-- Whether an expression can stand for any number of values at the end of a
list: a call or `...`, unless parenthesised. -/
def Expr.isMulti : Expr → Bool
  | .call _ | .vararg => true
  | _ => false

/-- Whether an expression is a literal `nil`. -/
def Expr.isNil : Expr → Bool
  | .nil => true
  | _ => false

end LuaLowering
