import LuaLowering.Lower
import LuaLowering.Proofs.Shape.Statement

/-!
# The code of a syntax tree

The recursion over the syntax, for shapes as it is for lowering: each case hands
the shapes of its parts to the shape of the construct.
-/

namespace LuaLowering

mutual

/-- The code of an expression. -/
def Expr.shape : Expr → ExprShape
  | .nil => fun S _ a want _ lo hi => S.Writes (.abc .loadNil a ((max want 1).toNat - 1) 0) lo hi
  | .boolean b => fun S _ a _ _ lo hi => S.Writes (.abc .loadBool a (if b then 1 else 0) 0) lo hi
  | .vararg => fun S _ a want _ lo hi => S.Writes (.abc .vararg a (countCode want) 0) lo hi
  | .integer n => fun S _ a _ _ lo hi => ConstantIs S (.integer n) a lo hi
  | .float x => fun S _ a _ _ lo hi => ConstantIs S (.float x) a lo hi
  | .string s => fun S _ a _ _ lo hi => ConstantIs S (.string s) a lo hi
  | .name x => fun S opened a _ used lo hi => NameIs S opened x a used lo hi
  | .paren inner => fun S opened a _ used lo hi => inner.shape S opened a 1 used lo hi
  | .call c => fun S opened a want used lo hi =>
    CallIs S opened c.calleePart c.method c.argParts a want used lo hi
  | .function f => fun S opened a _ _ lo hi => FunctionIs S opened f.written a lo hi
  | .table fields => fun S opened a _ used lo hi =>
      TableIs S opened (Field.parts fields) a used lo hi
  | .index table key => fun S opened a _ used lo hi =>
    IndexIs S opened ⟨table, table.shape⟩ ⟨key, key.shape⟩ a used lo hi
  | .unary op e => fun S opened a _ used lo hi => UnaryIs S opened op ⟨e, e.shape⟩ a used lo hi
  | .binary op left right => fun S opened a _ used lo hi =>
    BinaryIs S opened op ⟨left, left.shape⟩ ⟨right, right.shape⟩ a used lo hi
  | .concat operands => fun S opened a _ used lo hi =>
    ConcatIs S opened (Expr.parts operands) a used lo hi

/-- The parts of a list of expressions. -/
def Expr.parts : List Expr → List Part
  | [] => []
  | e :: rest => ⟨e, e.shape⟩ :: Expr.parts rest

/-- The parts of the fields of a table constructor. -/
def Field.parts : List Field → List FieldPart
  | [] => []
  | .item value :: rest => .item ⟨value, value.shape⟩ :: Field.parts rest
  | .entry key value :: rest => .entry ⟨key, key.shape⟩ ⟨value, value.shape⟩ :: Field.parts rest

/-- The function of a call, as a part. -/
def Call.calleePart : Call → Part
  | ⟨callee, _, _, _⟩ => ⟨callee, callee.shape⟩

/-- The arguments of a call, as parts. -/
def Call.argParts : Call → List Part
  | ⟨_, _, args, _⟩ => Expr.parts args

/-- The code of a function, from its first instruction to its last. -/
def FunctionBody.written : FunctionBody → Site → Prop
  | ⟨params, isVararg, body, line, lastLine⟩ => fun S => WrittenIs params body.shape S ∧
    S.LeftBy (writeFunction params isVararg line lastLine body.lower)

/-- The code of a block. -/
def Block.shape : Block → StatShape
  | ⟨stats, result, _⟩ =>
    match result with
    | none => Stat.shapeAll stats
    | some [.call c] => SeqIs (Stat.shapeAll stats) (ReturnCallIs c.calleePart c.method c.argParts)
    | some values => SeqIs (Stat.shapeAll stats) (ReturnIs (Expr.parts values))

/-- The code of statements one after another. -/
def Stat.shapeAll : List Stat → StatShape
  | [] => fun _ _ P P' => P' = P
  | s :: rest => SeqIs s.shape (Stat.shapeAll rest)

/-- The code of a statement. A label or a jump to one is never compiled. -/
def Stat.shape : Stat → StatShape
  | .empty => fun _ _ P P' => P' = P
  | .break _ => BreakIs
  | .label _ _ => fun _ _ _ _ => False
  | .goto _ _ => fun _ _ _ _ => False
  | .block body => ScopedIs body.shape
  | .call c => CallStatIs c.calleePart c.method c.argParts
  | .whileLoop cond body _ => WhileIs ⟨cond, cond.shape⟩ body.shape
  | .repeatLoop body cond _ => RepeatIs body.shape ⟨cond, cond.shape⟩
  | .ifChain arms => IfIs (Branch.parts arms)
  | .numericFor var init limit step body _ _ =>
    NumericForIs var ⟨init, init.shape⟩ ⟨limit, limit.shape⟩
      (match step with
        | some e => ⟨e, e.shape⟩
        | none => .constant (.integer 1) (.integer 1))
      body.shape
  | .genericFor names values body _ => GenericForIs names (Expr.parts values) body.shape
  | .assign targets values _ => AssignIs (Target.parts targets) (Expr.parts values)
  | .declare names values _ => DeclareIs names (Expr.parts values)
  | .declareFunction x f => DeclareFunctionIs x f.written

/-- The arms of an `if`, as parts. -/
def Branch.parts : List Branch → List ArmPart
  | [] => []
  | ⟨cond, body, _⟩ :: rest => ⟨⟨cond, cond.shape⟩, body.shape⟩ :: Branch.parts rest

/-- The targets of an assignment, as parts. -/
def Target.parts : List Target → List TargetPart
  | [] => []
  | .name x :: rest => .name x :: Target.parts rest
  | .index table key :: rest =>
    .index ⟨table, table.shape⟩ ⟨key, key.shape⟩ :: Target.parts rest

end

/-- A numeric `for` without a step moves by one. -/
theorem Stat.shape_numericFor {var : String} {init limit : Expr} {step : Option Expr} {body : Block}
    {forLine doLine : Nat} :
    (Stat.numericFor var init limit step body forLine doLine).shape =
      NumericForIs var ⟨init, init.shape⟩ ⟨limit, limit.shape⟩
        ⟨step.getD (.integer 1), (step.getD (.integer 1)).shape⟩ body.shape := by
  cases step <;> rw [Stat.shape] <;> rfl

end LuaLowering
