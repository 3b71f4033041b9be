import LuaLowering.Proofs.Stepwise.Placeless

/-!
# From constructs to lowering

Where positions are at play, in loops and branches and with the ranges of locals, a
property may have to see a construct as a whole. `Constructwise` lists these constructs,
each with the property for its parts. The rest of lowering is placeless, and so the
property is one of all of it. The one induction over the syntax that this takes is here.
-/

namespace LuaLowering

open LowerM

open Placeless (Loads LoadsField LoadsTarget)

variable {P : (α : Type) → LowerM α → Prop}

/-- An arm whose condition and body have the property. -/
def LowersArm (P : (α : Type) → LowerM α → Prop) (arm : Arm) : Prop :=
  Loads P arm.cond ∧ P Unit arm.body

/-- A property that placeless code has, and every construct whose parts have it. -/
structure Constructwise (P : (α : Type) → LowerM α → Prop) : Prop extends Placeless P where
  loadShortCircuit : ∀ (keep : Nat) {left right : Source}, Loads P left → Loads P right →
    ∀ a, P Unit (loadShortCircuit keep left right a)
  function : ∀ (f : FunctionBody) (a : Nat), P Unit f.body.lower → P Unit (f.lower a)
  lowerDeclare : ∀ (names : List String) {values : List Source}, (∀ s ∈ values, Loads P s) →
    ∀ line, P Unit (lowerDeclare names values line)
  lowerScoped : ∀ {body : LowerM Unit}, P Unit body → ∀ lastLine, P Unit (lowerScoped body lastLine)
  lowerBreak : ∀ line, P Unit (lowerBreak line)
  lowerWhile : ∀ {cond : Source} {body : LowerM Unit}, Loads P cond → P Unit body →
    ∀ line lastLine, P Unit (lowerWhile cond body line lastLine)
  lowerRepeat : ∀ {body : LowerM Unit} {cond : Source}, P Unit body → Loads P cond →
    ∀ line, P Unit (lowerRepeat body cond line)
  lowerIf : ∀ {arms : List Arm}, (∀ arm ∈ arms, LowersArm P arm) → P Unit (lowerIf arms)
  lowerNumericFor : ∀ (var : String) {init limit step : Source} {body : LowerM Unit},
    Loads P init → Loads P limit → Loads P step → P Unit body →
    ∀ forLine doLine lastLine,
      P Unit (lowerNumericFor var init limit step body forLine doLine lastLine)
  lowerGenericFor : ∀ (names : List String) {values : List Source} {body : LowerM Unit},
    (∀ s ∈ values, Loads P s) → P Unit body →
    ∀ doLine lastLine, P Unit (lowerGenericFor names values body doLine lastLine)
  -- a local is declared from behind the instruction that loads it
  declareAhead : ∀ (x : String) {load : Nat → LowerM Unit}, (∀ r, P Unit (load r)) →
    P Unit (do load (← declareLocal x ((← here) + 1)))

namespace Constructwise

theorem loadBinary (hP : Constructwise P) (op : BinaryOp) {left right : Source} (hl : Loads P left)
    (hr : Loads P right) (a : Nat) : P Unit (loadBinary op left right a) := by
  unfold LuaLowering.loadBinary
  split
  · exact hP.loadShortCircuit _ hl hr a
  · exact hP.loadShortCircuit _ hl hr a
  · exact hP.loadStrict _ hl hr a

end Constructwise

/-! ## The recursion -/

mutual

theorem Constructwise.expr (hP : Constructwise P) : ∀ e : Expr, Loads P ⟨e, e.lower⟩
  | .nil => fun a want => by
      simp only [Expr.lower]
      exact hP.bind hP.currentLine fun _ => hP.loadNil ..
  | .boolean b => fun a want => by
      simp only [Expr.lower]
      exact hP.bind hP.currentLine fun _ => hP.plain ..
  | .vararg => fun a want => by
      simp only [Expr.lower]
      exact hP.bind hP.currentLine fun _ => hP.vararg ..
  | .integer n => fun a want => by
      simp only [Expr.lower]
      exact hP.bind hP.currentLine fun _ => hP.loadConstant ..
  | .float x => fun a want => by
      simp only [Expr.lower]
      exact hP.bind hP.currentLine fun _ => hP.loadConstant ..
  | .string s => fun a want => by
      simp only [Expr.lower]
      exact hP.bind hP.currentLine fun _ => hP.loadConstant ..
  | .name x => fun a want => by
      simp only [Expr.lower]
      exact hP.loadName x a
  | .paren inner => fun a want => by
      simp only [Expr.lower]
      exact Constructwise.expr hP inner a 1
  | .call c => fun a want => by
      simp only [Expr.lower, Call.lower_eq]
      exact hP.finishCall (Constructwise.prepare hP c) c.line a want
  | .function f => fun a want => by
      simp only [Expr.lower]
      exact Constructwise.functionBody hP f a
  | .table fields => fun a want => by
      simp only [Expr.lower]
      exact hP.loadTable (Constructwise.fields hP fields) a
  | .index table key => fun a want => by
      simp only [Expr.lower]
      exact hP.loadIndex (Constructwise.expr hP table) (Constructwise.expr hP key) a
  | .unary op e => fun a want => by
      simp only [Expr.lower]
      exact hP.loadUnary op (Constructwise.expr hP e) a
  | .binary op left right => fun a want => by
      simp only [Expr.lower]
      exact hP.loadBinary op (Constructwise.expr hP left) (Constructwise.expr hP right) a
  | .concat operands => fun a want => by
      simp only [Expr.lower]
      exact hP.loadConcat (Constructwise.exprs hP operands) a

theorem Constructwise.exprs (hP : Constructwise P) :
    ∀ es : List Expr, ∀ s ∈ Expr.sources es, Loads P s
  | [] => by
      simp only [Expr.sources]
      exact nofun
  | e :: rest => by
      simp only [Expr.sources, List.forall_mem_cons]
      exact ⟨Constructwise.expr hP e, Constructwise.exprs hP rest⟩

theorem Constructwise.fields (hP : Constructwise P) :
    ∀ fields : List Field, ∀ f ∈ Field.sources fields, LoadsField P f
  | [] => by
      simp only [Field.sources]
      exact nofun
  | .item value :: rest => by
      simp only [Field.sources, List.forall_mem_cons]
      exact ⟨Constructwise.expr hP value, Constructwise.fields hP rest⟩
  | .entry key value :: rest => by
      simp only [Field.sources, List.forall_mem_cons]
      exact ⟨⟨Constructwise.expr hP key, Constructwise.expr hP value⟩, Constructwise.fields hP rest⟩

theorem Constructwise.prepare (hP : Constructwise P) : ∀ (c : Call) (a : Nat), P Int (c.prepare a)
  | ⟨callee, method, args, line⟩, a => by
      simp only [Call.prepare]
      exact hP.layOutCall (Constructwise.expr hP callee) method (Constructwise.exprs hP args) line a

/-- The call whose results alone a block returns. -/
theorem Constructwise.prepareOnly (hP : Constructwise P) :
    ∀ (es : List Expr) (c : Call), es = [.call c] → ∀ a, P Int (c.prepare a)
  | [.call c], _, rfl => Constructwise.prepare hP c

theorem Constructwise.functionBody (hP : Constructwise P) : ∀ (f : FunctionBody) (a : Nat),
    P Unit (f.lower a)
  | ⟨params, isVararg, body, line, lastLine⟩, a =>
    hP.function ⟨params, isVararg, body, line, lastLine⟩ a (Constructwise.block hP body)

theorem Constructwise.block (hP : Constructwise P) : ∀ b : Block, P Unit b.lower
  | ⟨stats, none, lastLine⟩ => by
      simp only [Block.lower]
      exact hP.bind (Constructwise.stats hP stats) fun _ => hP.pure ()
  | ⟨stats, some values, lastLine⟩ => by
      have hvalues := Constructwise.exprs hP values
      have hcall := Constructwise.prepareOnly hP values
      rw [Block.lower.eq_def]
      refine hP.bind (Constructwise.stats hP stats) fun _ => ?_
      split
      · next heq => cases heq
      · next c heq =>
        cases heq
        exact hP.lowerReturnCall (hcall c rfl) c.line lastLine
      · next values' hno heq =>
        cases heq
        exact hP.lowerReturn hvalues lastLine

theorem Constructwise.stats (hP : Constructwise P) : ∀ stats : List Stat,
    P Unit (Stat.lowerAll stats)
  | [] => by
      simp only [Stat.lowerAll]
      exact hP.pure ()
  | s :: rest => by
      simp only [Stat.lowerAll]
      exact hP.bind (Constructwise.stat hP s) fun _ => Constructwise.stats hP rest

theorem Constructwise.stat (hP : Constructwise P) : ∀ s : Stat, P Unit s.lower
  | .empty => by
      simp only [Stat.lower]
      exact hP.pure ()
  | .break line => by
      simp only [Stat.lower]
      exact hP.lowerBreak line
  | .label x line => by
      simp only [Stat.lower]
      exact hP.reject _
  | .goto x line => by
      simp only [Stat.lower]
      exact hP.reject _
  | .block body => by
      simp only [Stat.lower]
      exact hP.lowerScoped (Constructwise.block hP body) body.lastLine
  | .call c => by
      simp only [Stat.lower]
      exact hP.lowerCallStat (Constructwise.prepare hP c) c.line
  | .whileLoop cond body line => by
      simp only [Stat.lower]
      exact hP.lowerWhile (Constructwise.expr hP cond) (Constructwise.block hP body) line
        body.lastLine
  | .repeatLoop body cond line => by
      simp only [Stat.lower]
      exact hP.lowerRepeat (Constructwise.block hP body) (Constructwise.expr hP cond) line
  | .ifChain arms => by
      simp only [Stat.lower]
      exact hP.lowerIf (Constructwise.arms hP arms)
  | .numericFor var init limit (some step) body forLine doLine => by
      simp only [Stat.lower]
      exact hP.lowerNumericFor var (Constructwise.expr hP init) (Constructwise.expr hP limit)
        (Constructwise.expr hP step) (Constructwise.block hP body) forLine doLine body.lastLine
  | .numericFor var init limit none body forLine doLine => by
      simp only [Stat.lower]
      exact hP.lowerNumericFor var (Constructwise.expr hP init) (Constructwise.expr hP limit)
        (hP.loads_constant _ _) (Constructwise.block hP body) forLine doLine body.lastLine
  | .genericFor names values body doLine => by
      simp only [Stat.lower]
      exact hP.lowerGenericFor names (Constructwise.exprs hP values) (Constructwise.block hP body)
        doLine body.lastLine
  | .assign targets values line => by
      simp only [Stat.lower]
      exact hP.lowerAssign (Constructwise.targets hP targets) (Constructwise.exprs hP values) line
  | .declare names values line => by
      simp only [Stat.lower]
      exact hP.lowerDeclare names (Constructwise.exprs hP values) line
  | .declareFunction x f => by
      simp only [Stat.lower]
      exact hP.bind (hP.setLine f.line) fun _ =>
        hP.declareAhead x (Constructwise.functionBody hP f)

theorem Constructwise.arms (hP : Constructwise P) :
    ∀ arms : List Branch, ∀ arm ∈ Branch.arms arms, LowersArm P arm
  | [] => by
      simp only [Branch.arms]
      exact nofun
  | ⟨cond, body, line⟩ :: rest => by
      simp only [Branch.arms, List.forall_mem_cons]
      exact ⟨⟨Constructwise.expr hP cond, Constructwise.block hP body⟩, Constructwise.arms hP rest⟩

theorem Constructwise.targets (hP : Constructwise P) :
    ∀ targets : List Target, ∀ t ∈ Target.sources targets, LoadsTarget P t
  | [] => by
      simp only [Target.sources]
      exact nofun
  | .name x :: rest => by
      simp only [Target.sources, List.forall_mem_cons]
      exact ⟨trivial, Constructwise.targets hP rest⟩
  | .index table key :: rest => by
      simp only [Target.sources, List.forall_mem_cons]
      exact ⟨⟨Constructwise.expr hP table, Constructwise.expr hP key⟩,
        Constructwise.targets hP rest⟩

end

end LuaLowering
