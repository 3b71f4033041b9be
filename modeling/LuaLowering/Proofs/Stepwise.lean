import LuaLowering.Proofs.Stepwise.Constructs

/-!
# From the builder's steps to lowering

Lowering touches a workspace only through the steps of the builder. What holds of
each of these, and of a sequence whenever it holds of its parts, therefore holds of
lowering as a whole. `Stepwise` says what has to be shown.

A step of the builder is taken as a unit here even if it is made of smaller ones.
What becomes of a function while its innermost scope is left, say, is for each
property to see for itself.
-/

namespace LuaLowering

open LowerM

open Placeless (Loads)

/-- A property of steps that every step of the builder has and that sequences
inherit. -/
structure Stepwise (P : (α : Type) → LowerM α → Prop) : Prop extends Placeless P where
  here : P Nat here
  emit : ∀ line i, P Nat (emit line i)
  offsetBetween : ∀ origin target, P Int (offsetBetween origin target)
  aimJump : ∀ pc target, P Unit (aimJump pc target)
  declareLocal : ∀ x startPc, P Nat (declareLocal x startPc)
  localAt : ∀ i, P Local (localAt i)
  prolongLocals : ∀ first past delta, P Unit (prolongLocals first past delta)
  openScope : ∀ breakable, P Unit (openScope breakable)
  addBreak : ∀ pc line, P Unit (addBreak pc line)
  closeScope : ∀ endPc, P Unit (closeScope endPc)
  heading : ∀ line lastLine count isVararg, P Unit (update fun d =>
    { d with
      line, lineDefined := line, lastLineDefined := lastLine, paramCount := count, isVararg })
  function : ∀ {write : LowerM Unit} lastLine a,
    P Unit write → P Unit (loadFunction lastLine write a)
  write := fun line i h => bind (emit line i) fun _ => h

variable {P : (α : Type) → LowerM α → Prop}

namespace Stepwise

variable (hP : Stepwise P)

include hP

theorem offsetFromHere (target : Nat) : P Int (offsetFromHere target) :=
  hP.bind hP.here fun _ => hP.offsetBetween _ target

theorem declareLocals (startPc : Nat) (names : List String) :
    P Unit (declareLocals startPc names) := by
  induction names with
  | nil => exact hP.pure ()
  | cons x rest ih => exact hP.bind (hP.declareLocal x startPc) fun _ => ih

theorem asbx (line : Nat) (op : Opcode) (a : Nat) (offset : Int) :
    P Nat (Emit.asbx line op a offset) := by
  unfold Emit.asbx
  split
  · exact hP.emit line _
  · exact hP.misuse _

theorem loadShortCircuit (keep : Nat) {left right : Source} (hl : Loads P left) (hr : Loads P right)
    (a : Nat) : P Unit (loadShortCircuit keep left right a) :=
  hP.bind hP.currentLine fun _ => hP.bind hP.usedRegisters fun mark =>
    hP.bind (hP.operand hl _) fun _ => hP.bind (hP.freeRegistersTo mark) fun _ =>
      hP.bind (hP.plain ..) fun _ => hP.bind (hP.asbx ..) fun skip =>
        hP.bind (hP.operand hr _) fun _ => hP.bind (hP.freeRegistersTo mark) fun _ =>
          hP.bind (hP.plain ..) fun _ => hP.bind hP.here fun _ => hP.aimJump skip _

theorem writeBody (params : List String) {body : LowerM Unit} (hb : P Unit body) (lastLine : Nat) :
    P Unit (writeBody params body lastLine) :=
  hP.bind (hP.declareLocals 0 params) fun _ => hP.bind hb fun _ => hP.bind hP.here fun _ =>
    hP.bind (hP.closeScope _) fun _ => hP.ret ..

theorem writeFunction (params : List String) (isVararg : Bool) (line lastLine : Nat)
    {body : LowerM Unit} (hb : P Unit body) :
    P Unit (writeFunction params isVararg line lastLine body) :=
  hP.bind (hP.heading ..) fun _ => hP.writeBody params hb lastLine

/-! ## Statements -/

theorem lowerDeclare (names : List String) {values : List Source} (hv : ∀ s ∈ values, Loads P s)
    (line : Nat) : P Unit (lowerDeclare names values line) :=
  hP.bind (hP.setLine line) fun _ => hP.bind hP.usedRegisters fun mark =>
    hP.bind (hP.loadAdjusted _ hv line) fun _ => hP.bind (hP.freeRegistersTo mark) fun _ =>
      hP.bind hP.here fun pc => hP.declareLocals pc names

theorem branchUnless {cond : Source} (hc : Loads P cond) (line : Nat) :
    P Nat (branchUnless cond line) :=
  hP.bind (hP.setLine line) fun _ => hP.bind hP.usedRegisters fun mark =>
    hP.bind (hP.operand hc _) fun _ => hP.bind (hP.freeRegistersTo mark) fun _ =>
      hP.bind (hP.plain ..) fun _ => hP.asbx ..

theorem lowerScoped {body : LowerM Unit} (hb : P Unit body) (lastLine : Nat) :
    P Unit (lowerScoped body lastLine) :=
  hP.bind (hP.openScope false) fun _ => hP.bind hb fun _ =>
    hP.bind (hP.closeCaptured lastLine) fun _ => hP.bind hP.here fun _ => hP.closeScope _

theorem lowerBreak (line : Nat) : P Unit (lowerBreak line) :=
  hP.bind (hP.asbx ..) fun pc => hP.addBreak pc line

theorem lowerWhile {cond : Source} {body : LowerM Unit} (hc : Loads P cond) (hb : P Unit body)
    (line lastLine : Nat) : P Unit (lowerWhile cond body line lastLine) :=
  hP.bind hP.here fun _ => hP.bind (hP.branchUnless hc line) fun leave =>
    hP.bind (hP.openScope true) fun _ => hP.bind hb fun _ =>
      hP.bind (hP.closeCaptured lastLine) fun _ => hP.bind (hP.offsetFromHere _) fun _ =>
        hP.bind (hP.asbx ..) fun _ => hP.bind hP.here fun _ => hP.bind (hP.closeScope _) fun _ =>
          hP.bind hP.here fun _ => hP.aimJump leave _

theorem lowerRepeat {body : LowerM Unit} {cond : Source} (hb : P Unit body) (hc : Loads P cond)
    (line : Nat) : P Unit (lowerRepeat body cond line) :=
  hP.bind (hP.openScope true) fun _ => hP.bind hP.here fun _ => hP.bind hb fun _ =>
    hP.bind (hP.setLine line) fun _ => hP.bind hP.usedRegisters fun mark =>
      hP.bind (hP.operand hc _) fun _ => hP.bind (hP.freeRegistersTo mark) fun _ =>
        hP.bind (hP.plain ..) fun _ => hP.bind hP.closeLevel fun _ =>
          hP.bind (hP.offsetFromHere _) fun _ => hP.bind (hP.asbx ..) fun _ =>
            hP.bind (hP.closeCaptured line) fun _ => hP.bind hP.here fun _ => hP.closeScope _

theorem lowerArm {arm : Arm} (ha : LowersArm P arm) : P Nat (lowerArm arm) :=
  hP.bind (hP.branchUnless ha.1 _) fun _ => hP.bind (hP.lowerScoped ha.2 _) fun _ => hP.pure _

theorem lowerArms {arms : List Arm} (ha : ∀ arm ∈ arms, LowersArm P arm) :
    P (List Nat) (lowerArms arms) := by
  induction arms with
  | nil => exact hP.pure []
  | cons arm rest ih =>
    obtain ⟨harm, hrest⟩ := List.forall_mem_cons.mp ha
    cases rest with
    | nil => exact hP.bind (hP.lowerArm harm) fun _ => hP.pure _
    | cons arm' rest =>
      exact hP.bind (hP.lowerArm harm) fun skip => hP.bind (hP.asbx ..) fun _ =>
        hP.bind hP.here fun _ => hP.bind (hP.aimJump skip _) fun _ =>
          hP.bind (ih hrest) fun _ => hP.pure _

theorem lowerIf {arms : List Arm} (ha : ∀ arm ∈ arms, LowersArm P arm) : P Unit (lowerIf arms) := by
  refine hP.bind (hP.lowerArms ha) fun exits => hP.bind hP.here fun target => ?_
  induction exits with
  | nil => exact hP.pure ()
  | cons pc rest ih => exact hP.bind (hP.aimJump pc target) fun _ => ih

theorem enterFor (state : List String) {values : List Source} (hv : ∀ s ∈ values, Loads P s)
    (names : List String) (line : Nat) : P Nat (enterFor state values names line) :=
  hP.bind (hP.setLine line) fun _ => hP.bind (hP.openScope true) fun _ =>
    hP.bind hP.declaredCount fun _ => hP.bind (hP.lowerDeclare state hv line) fun _ =>
      hP.bind hP.here fun _ => hP.bind (hP.declareLocals _ names) fun _ => hP.pure _

theorem leaveFor (hidden n : Nat) : P Unit (leaveFor hidden n) :=
  hP.bind hP.here fun _ => hP.bind (hP.before _ n) fun _ => hP.bind (hP.closeScope _) fun _ =>
    hP.prolongLocals ..

theorem lowerNumericFor (var : String) {init limit step : Source} {body : LowerM Unit}
    (hi : Loads P init) (hl : Loads P limit) (hs : Loads P step) (hb : P Unit body)
    (forLine doLine lastLine : Nat) :
    P Unit (lowerNumericFor var init limit step body forLine doLine lastLine) := by
  have hvalues : ∀ s ∈ [init, limit, step], Loads P s := by
    simp only [List.forall_mem_cons, List.not_mem_nil, false_implies, implies_true, and_true]
    exact ⟨hi, hl, hs⟩
  exact hP.bind (hP.enterFor _ hvalues _ _) fun hidden => hP.bind hP.usedRegisters fun _ =>
    hP.bind (hP.before _ 4) fun base => hP.bind (hP.asbx ..) fun prep => hP.bind hb fun _ =>
      hP.bind (hP.closeCaptured lastLine) fun _ => hP.bind (hP.asbx ..) fun step =>
        hP.bind (hP.aimJump prep step) fun _ => hP.bind (hP.aimJump step _) fun _ =>
          hP.leaveFor hidden 1

theorem lowerGenericFor (names : List String) {values : List Source} {body : LowerM Unit}
    (hv : ∀ s ∈ values, Loads P s) (hb : P Unit body) (doLine lastLine : Nat) :
    P Unit (lowerGenericFor names values body doLine lastLine) :=
  hP.bind (hP.enterFor _ hv names doLine) fun hidden => hP.bind (hP.asbx ..) fun enter =>
    hP.bind hb fun _ => hP.bind (hP.closeCaptured lastLine) fun _ => hP.bind hP.here fun _ =>
      hP.bind (hP.aimJump enter _) fun _ => hP.bind (hP.localAt hidden) fun _ =>
        hP.bind (hP.plain ..) fun _ => hP.bind (hP.offsetFromHere _) fun _ =>
          hP.bind (hP.asbx ..) fun _ => hP.leaveFor hidden 2

/-! ## All of lowering -/

theorem constructwise : Constructwise P where
  toPlaceless := hP.toPlaceless
  loadShortCircuit := hP.loadShortCircuit
  function f a hbody := by
    obtain ⟨params, isVararg, body, line, lastLine⟩ := f
    rw [FunctionBody.lower]
    exact hP.function lastLine a (hP.writeFunction params isVararg line lastLine hbody)
  lowerDeclare := hP.lowerDeclare
  lowerScoped := hP.lowerScoped
  lowerBreak := hP.lowerBreak
  lowerWhile := hP.lowerWhile
  lowerRepeat := hP.lowerRepeat
  lowerIf := hP.lowerIf
  lowerNumericFor := hP.lowerNumericFor
  lowerGenericFor := hP.lowerGenericFor
  declareAhead x _ hload :=
    hP.bind hP.here fun _ => hP.bind (hP.declareLocal x _) fun r => hload r

theorem expr (e : Expr) : Loads P ⟨e, e.lower⟩ := hP.constructwise.expr e

theorem exprs (es : List Expr) : ∀ s ∈ Expr.sources es, Loads P s :=
  hP.constructwise.exprs es

theorem prepare (c : Call) (a : Nat) : P Int (c.prepare a) :=
  hP.constructwise.prepare c a

theorem functionBody (f : FunctionBody) (a : Nat) : P Unit (f.lower a) :=
  hP.constructwise.functionBody f a

theorem block (b : Block) : P Unit b.lower := hP.constructwise.block b

theorem stat (s : Stat) : P Unit s.lower := hP.constructwise.stat s

end Stepwise

end LuaLowering
