import LuaLowering.Lower.Control

/-!
# Lowering the syntax tree

The recursion over the syntax. Each case hands the sources of its parts to the
function that lowers the construct, so that all this file says is which
function that is.

The recursion is structural, also through the lists and through the steps
inside a source, which are the recursive calls themselves waiting for a
register.
-/

namespace LuaLowering

open LowerM

mutual

/-- Loads `want` values of an expression into the registers from `a` on. -/
def Expr.lower : Expr → Nat → Int → LowerM Unit
  | .nil, a, want => do Emit.loadNil (← currentLine) a (max want 1).toNat
  | .boolean b, a, _ => do Emit.loadBool (← currentLine) a (if b then 1 else 0) 0
  | .vararg, a, want => do Emit.vararg (← currentLine) a want
  | .integer n, a, _ => do Emit.loadConstant (← currentLine) a (.integer n)
  | .float x, a, _ => do Emit.loadConstant (← currentLine) a (.float x)
  | .string s, a, _ => do Emit.loadConstant (← currentLine) a (.string s)
  | .name x, a, _ => loadName x a
  | .paren inner, a, _ => inner.lower a 1
  | .call c, a, want => c.lower a want
  | .function f, a, _ => f.lower a
  | .table fields, a, _ => loadTable (Field.sources fields) a
  | .index table key, a, _ => loadIndex ⟨table, table.lower⟩ ⟨key, key.lower⟩ a
  | .unary op e, a, _ => loadUnary op ⟨e, e.lower⟩ a
  | .binary op left right, a, _ => loadBinary op ⟨left, left.lower⟩ ⟨right, right.lower⟩ a
  | .concat operands, a, _ => loadConcat (Expr.sources operands) a

/-- The sources of expressions. -/
def Expr.sources : List Expr → List Source
  | [] => []
  | e :: rest => ⟨e, e.lower⟩ :: Expr.sources rest

/-- The sources of the fields of a table constructor. -/
def Field.sources : List Field → List FieldSource
  | [] => []
  | .item value :: rest => .item ⟨value, value.lower⟩ :: Field.sources rest
  | .entry key value :: rest =>
    .entry ⟨key, key.lower⟩ ⟨value, value.lower⟩ :: Field.sources rest

/-- Loads the function and the arguments of a call from `a` on and gives the
number of arguments. -/
def Call.prepare : Call → Nat → LowerM Int
  | ⟨callee, method, args, line⟩, a =>
    layOutCall ⟨callee, callee.lower⟩ method (Expr.sources args) line a

/-- Lowers a call that keeps `want` results in the registers from `a` on. -/
def Call.lower : Call → Nat → Int → LowerM Unit
  | ⟨callee, method, args, line⟩, a, want =>
    finishCall (layOutCall ⟨callee, callee.lower⟩ method (Expr.sources args) line) line a want

/-- Lowers a function and loads its closure into `a`. -/
def FunctionBody.lower : FunctionBody → Nat → LowerM Unit
  | ⟨params, isVararg, body, line, lastLine⟩, a =>
    loadFunction lastLine (writeFunction params isVararg line lastLine body.lower) a

/-- Lowers the statements of a block and its return, if it has one. -/
def Block.lower : Block → LowerM Unit
  | ⟨stats, result, lastLine⟩ => do
    Stat.lowerAll stats
    match result with
    | none => pure ()
    | some [.call c] => lowerReturnCall c.prepare c.line lastLine
    | some values => lowerReturn (Expr.sources values) lastLine

/-- Lowers statements one after another. -/
def Stat.lowerAll : List Stat → LowerM Unit
  | [] => pure ()
  | s :: rest => do
    s.lower
    Stat.lowerAll rest

/-- Lowers a statement. -/
def Stat.lower : Stat → LowerM Unit
  | .empty => pure ()
  | .break line => lowerBreak line
  | .label _ line => reject (.unsupported .label line)
  | .goto _ line => reject (.unsupported .goto line)
  | .block body => lowerScoped body.lower body.lastLine
  | .call c => lowerCallStat c.prepare c.line
  | .whileLoop cond body line => lowerWhile ⟨cond, cond.lower⟩ body.lower line body.lastLine
  | .repeatLoop body cond line => lowerRepeat body.lower ⟨cond, cond.lower⟩ line
  | .ifChain arms => lowerIf (Branch.arms arms)
  | .numericFor var init limit step body forLine doLine =>
    lowerNumericFor var ⟨init, init.lower⟩ ⟨limit, limit.lower⟩
      (match step with
        | some e => ⟨e, e.lower⟩
        | none => .constant (.integer 1) (.integer 1))
      body.lower forLine doLine body.lastLine
  | .genericFor names values body doLine =>
    lowerGenericFor names (Expr.sources values) body.lower doLine body.lastLine
  | .assign targets values line => lowerAssign (Target.sources targets) (Expr.sources values) line
  | .declare names values line => lowerDeclare names (Expr.sources values) line
  | .declareFunction x f => do
    setLine f.line
    let r ← declareLocal x ((← here) + 1)
    f.lower r

/-- The arms of an `if` with the steps that lower their bodies. -/
def Branch.arms : List Branch → List Arm
  | [] => []
  | ⟨cond, body, line⟩ :: rest =>
    ⟨⟨cond, cond.lower⟩, body.lower, line, body.lastLine⟩ :: Branch.arms rest

/-- The sources of assignment targets. -/
def Target.sources : List Target → List TargetSource
  | [] => []
  | .name x :: rest => .name x :: Target.sources rest
  | .index table key :: rest =>
    .index ⟨table, table.lower⟩ ⟨key, key.lower⟩ :: Target.sources rest

end

/-- An expression as a source. -/
def Expr.source (e : Expr) : Source := ⟨e, e.lower⟩

theorem Expr.sources_eq_map (es : List Expr) : Expr.sources es = es.map Expr.source := by
  induction es with
  | nil => rw [Expr.sources, List.map_nil]
  | cons e rest ih => rw [Expr.sources, ih, List.map_cons, Expr.source]

theorem Call.lower_eq (c : Call) (a : Nat) (want : Int) :
    c.lower a want = finishCall c.prepare c.line a want := by
  cases c
  rw [Call.lower]
  congr 1

/-- Lowers `return f(…)` up to the call, with the function in `a`. -/
def Call.lowerTail (c : Call) (a : Nat) : LowerM Unit := finishTailCall c.prepare c.line a

end LuaLowering
