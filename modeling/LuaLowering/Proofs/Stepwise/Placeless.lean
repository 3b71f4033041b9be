import LuaLowering.Compile

/-!
# Steps that go by no place in the code

Much of lowering writes one instruction after another and never asks where they come to
stand. `Placeless` lists the steps of the builder that this takes: instructions are
written, and their positions dropped. A property that these steps have, and that
sequences inherit, is one that such code has.
-/

namespace LuaLowering

open LowerM

/-- A property of steps that sequences inherit, and that every step has which neither gives nor
takes a position. -/
structure Placeless (P : (α : Type) → LowerM α → Prop) : Prop where
  pure : ∀ {α : Type} (x : α), P α (pure x)
  bind : ∀ {α β : Type} {m : LowerM α} {f : α → LowerM β},
    P α m → (∀ x, P β (f x)) → P β (m >>= f)
  reject : ∀ {α : Type} (why : Rejection), P α (reject why)
  misuse : ∀ {α : Type} (how : Misuse), P α (misuse how)
  -- of the options, only the reach of an operand decides what is written
  options : ∀ {β : Type} {f : Options → LowerM β}, (∀ o, P β (f o)) →
    (∀ o o' : Options, o.constantLimit = o'.constantLimit → f o = f o') → P β (options >>= f)
  currentLine : P Nat currentLine
  setLine : ∀ line, P Unit (setLine line)
  usedRegisters : P Nat usedRegisters
  takeRegister : P Nat takeRegister
  takeRegisters : ∀ n, P Nat (takeRegisters n)
  freeRegisters : ∀ n, P Unit (freeRegisters n)
  freeRegistersTo : ∀ mark, P Unit (freeRegistersTo mark)
  -- an instruction is written and its position dropped
  write : ∀ {β : Type} {rest : LowerM β} (line : Nat) (i : Instruction),
    P β rest → P β (emit line i >>= fun _ => rest)
  constantIndex : ∀ k, P Nat (constantIndex k)
  slotOf? : ∀ x, P (Option Nat) (slotOf? x)
  declaredCount : P Nat declaredCount
  closeLevel : P Nat closeLevel
  upvalueOf? : ∀ x, P (Option Nat) (upvalueOf? x)

variable {P : (α : Type) → LowerM α → Prop} {s : Source} {sources values : List Source}
  {fields : List FieldSource} {prepare : Nat → LowerM Int} {targets : List TargetSource}

namespace Placeless

variable (hP : Placeless P)

include hP

theorem before (value back : Nat) : P Nat (before value back) := by
  unfold LuaLowering.before
  split
  · exact hP.pure _
  · exact hP.misuse _

theorem freeRegister : P Unit freeRegister := hP.freeRegisters 1

/-! ## Instructions -/

theorem countField (n : Int) : P Nat (countField n) := by
  unfold LuaLowering.countField
  split
  · exact hP.pure _
  · exact hP.misuse _

theorem sizeField (n : Nat) : P Nat (sizeField n) := by
  unfold LuaLowering.sizeField
  split
  · exact hP.pure _
  · exact hP.misuse _

theorem plain (line : Nat) (op : Opcode) (a b c : Nat) :
    P Unit (Emit.plain line op a b c) := hP.write line _ (hP.pure ())

theorem writeJump {β : Type} {rest : LowerM β} (line : Nat) (op : Opcode) (a : Nat) (offset : Int)
    (h : P β rest) : P β (Emit.asbx line op a offset >>= fun _ => rest) := by
  unfold Emit.asbx
  split
  · exact hP.write line _ h
  · exact hP.bind (hP.misuse _) fun _ => h

theorem loadNil (line a n : Nat) : P Unit (Emit.loadNil line a n) :=
  hP.bind (hP.before n 1) fun _ => hP.plain ..

theorem loadConstant (line a : Nat) (k : Constant) : P Unit (Emit.loadConstant line a k) := by
  refine hP.bind (hP.constantIndex k) fun i => ?_
  split
  · exact hP.write line _ (hP.pure ())
  · exact hP.write line _ (hP.write line _ (hP.pure ()))

theorem vararg (line a : Nat) (n : Int) : P Unit (Emit.vararg line a n) :=
  hP.bind (hP.countField n) fun _ => hP.plain ..

theorem closure (line a bx : Nat) : P Unit (Emit.closure line a bx) :=
  hP.write line _ (hP.pure ())

theorem newTable (line a items entries : Nat) : P Unit (Emit.newTable line a items entries) :=
  hP.bind (hP.sizeField items) fun _ => hP.bind (hP.sizeField entries) fun _ => hP.plain ..

theorem call (line a : Nat) (args results : Int) : P Unit (Emit.call line a args results) :=
  hP.bind (hP.countField args) fun _ => hP.bind (hP.countField results) fun _ => hP.plain ..

theorem tailCall (line a : Nat) (args : Int) : P Unit (Emit.tailCall line a args) :=
  hP.bind (hP.countField args) fun _ => hP.plain ..

theorem ret (line a : Nat) (n : Int) : P Unit (Emit.ret line a n) :=
  hP.bind (hP.countField n) fun _ => hP.plain ..

theorem binary (line : Nat) (op : BinaryOp) (a b c : Nat) : P Unit (Emit.binary line op a b c) := by
  unfold Emit.binary
  split
  · exact hP.plain ..
  · split
    · exact hP.bind (hP.plain ..) fun _ => hP.writeJump _ _ _ _ (hP.bind (hP.plain ..) fun _ =>
        hP.plain ..)
    · exact hP.pure ()

theorem closeCaptured (line : Nat) : P Unit (closeCaptured line) := by
  refine hP.bind hP.closeLevel fun level => ?_
  split
  · exact hP.writeJump _ _ _ _ (hP.pure ())
  · exact hP.pure ()

/-! ## Operands -/

/-- A source whose loading has the property, wherever to and however many values. -/
def Loads (P : (α : Type) → LowerM α → Prop) (s : Source) : Prop := ∀ a want, P Unit (s.load a want)

theorem loads_constant (e : Expr) (k : Constant) : Loads P (Source.constant e k) :=
  fun a _ => hP.bind hP.currentLine fun line => hP.loadConstant line a k

theorem constantOperand? (e : Expr) : P (Option Operand) (constantOperand? e) := by
  unfold LuaLowering.constantOperand?
  split
  · exact hP.pure none
  · refine hP.bind (hP.constantIndex _) fun i => ?_
    exact hP.options (fun _ => hP.pure _) fun o o' h => by rw [h]

theorem nameOperand? (e : Expr) (kinds : OperandKinds) :
    P (Option Operand) (nameOperand? e kinds) := by
  unfold LuaLowering.nameOperand?
  split
  · next x =>
    have hslot : P (Option Nat)
        (if kinds.registers then LuaLowering.slotOf? x else Pure.pure none) := by
      split
      · exact hP.slotOf? x
      · exact hP.pure none
    have hup : P (Option Nat)
        (if kinds.upvalues then LuaLowering.upvalueOf? x else Pure.pure none) := by
      split
      · exact hP.upvalueOf? x
      · exact hP.pure none
    refine hP.bind hslot fun r => ?_
    cases r with
    | some r => exact hP.pure _
    | none =>
      refine hP.bind hup fun u => ?_
      cases u <;> exact hP.pure _
  · exact hP.pure none

theorem operand (hs : Loads P s) (kinds : OperandKinds) : P Operand (operand s kinds) := by
  have hconst : P (Option Operand)
      (if kinds.constants then LuaLowering.constantOperand? s.exp else Pure.pure none) := by
    split
    · exact hP.constantOperand? s.exp
    · exact hP.pure none
  refine hP.bind hconst fun o => ?_
  cases o with
  | some o => exact hP.pure o
  | none =>
    refine hP.bind (hP.nameOperand? s.exp kinds) fun o => ?_
    cases o with
    | some o => exact hP.pure o
    | none => exact hP.bind hP.takeRegister fun r => hP.bind (hs r 1) fun _ => hP.pure _

theorem globalsOperand : P Operand globalsOperand := by
  refine hP.bind (hP.slotOf? "_ENV") fun r => ?_
  cases r with
  | some r => exact hP.pure _
  | none =>
    refine hP.bind (hP.upvalueOf? "_ENV") fun u => ?_
    cases u with
    | some u => exact hP.pure _
    | none => exact hP.bind hP.currentLine fun _ => hP.reject _

/-! ## Lists of values -/

theorem loadEach (lastWant : Int) (hs : ∀ s ∈ sources, Loads P s) :
    P Unit (loadEach lastWant sources) := by
  induction sources with
  | nil => exact hP.pure ()
  | cons s rest ih =>
    obtain ⟨hfirst, hrest⟩ := List.forall_mem_cons.mp hs
    cases rest with
    | nil => exact hP.bind hP.takeRegister fun r => hfirst r lastWant
    | cons s' rest =>
      exact hP.bind hP.takeRegister fun r => hP.bind (hfirst r 1) fun _ => ih hrest

theorem loadAll (hs : ∀ s ∈ sources, Loads P s) : P Int (loadAll sources) := by
  unfold LuaLowering.loadAll
  split
  · exact hP.bind (hP.loadEach _ hs) fun _ => hP.pure _
  · exact hP.bind (hP.loadEach _ hs) fun _ => hP.pure _

theorem loadAdjusted (n : Nat) (hs : ∀ s ∈ sources, Loads P s) (line : Nat) :
    P Unit (loadAdjusted n sources line) := by
  have hkept : ∀ s ∈ withoutTailNils sources, Loads P s := by
    intro s hmem
    have hdrop : s ∈ sources.reverse := (List.dropWhile_sublist _).subset (List.mem_reverse.mp hmem)
    exact hs s (List.mem_reverse.mp hdrop)
  simp only [LuaLowering.loadAdjusted]
  split
  · exact hP.loadEach _ hkept
  · split
    · exact hP.bind (hP.loadEach _ hkept) fun _ => hP.bind (hP.takeRegisters _) fun _ => hP.pure ()
    · exact hP.bind (hP.loadEach _ hkept) fun _ =>
        hP.bind (hP.takeRegisters _) fun _ => hP.loadNil ..

/-! ## Expressions -/

theorem getField (line a : Nat) (table key : Operand) : P Unit (getField line a table key) := by
  unfold LuaLowering.getField
  split <;> exact hP.plain ..

theorem loadName (x : String) (a : Nat) : P Unit (loadName x a) := by
  refine hP.bind hP.currentLine fun line => hP.bind (hP.slotOf? x) fun r => ?_
  cases r with
  | some r => exact hP.plain ..
  | none =>
    refine hP.bind (hP.upvalueOf? x) fun u => ?_
    cases u with
    | some u => exact hP.plain ..
    | none =>
      exact hP.bind hP.globalsOperand fun env => hP.bind hP.usedRegisters fun mark =>
        hP.bind (hP.operand (hP.loads_constant _ _) _) fun key =>
          hP.bind (hP.freeRegistersTo mark) fun _ => hP.getField ..

theorem loadIndex {table key : Source} (ht : Loads P table) (hk : Loads P key) (a : Nat) :
    P Unit (loadIndex table key a) :=
  hP.bind hP.currentLine fun _ => hP.bind hP.usedRegisters fun mark =>
    hP.bind (hP.operand ht _) fun _ => hP.bind (hP.operand hk _) fun _ =>
      hP.bind (hP.freeRegistersTo mark) fun _ => hP.getField ..

theorem loadUnary (op : UnaryOp) (hs : Loads P s) (a : Nat) : P Unit (loadUnary op s a) :=
  hP.bind hP.currentLine fun _ => hP.bind hP.usedRegisters fun mark =>
    hP.bind (hP.operand hs _) fun _ => hP.bind (hP.plain ..) fun _ => hP.freeRegistersTo mark

theorem loadStrict (op : BinaryOp) {left right : Source} (hl : Loads P left) (hr : Loads P right)
    (a : Nat) : P Unit (loadStrict op left right a) :=
  hP.bind hP.currentLine fun _ => hP.bind hP.usedRegisters fun mark =>
    hP.bind (hP.operand hl _) fun _ => hP.bind (hP.operand hr _) fun _ =>
      hP.bind (hP.binary ..) fun _ => hP.freeRegistersTo mark

theorem loadConcat {operands : List Source} (hs : ∀ s ∈ operands, Loads P s) (a : Nat) :
    P Unit (loadConcat operands a) :=
  hP.bind hP.currentLine fun _ => hP.bind hP.usedRegisters fun first =>
    hP.bind (hP.loadEach 1 hs) fun _ => hP.bind hP.usedRegisters fun _ =>
      hP.bind (hP.before _ 1) fun _ => hP.bind (hP.freeRegistersTo first) fun _ => hP.plain ..

/-- A field whose parts load with the property. -/
def LoadsField (P : (α : Type) → LowerM α → Prop) : FieldSource → Prop
  | .item value => Loads P value
  | .entry key value => Loads P key ∧ Loads P value

theorem storeFields (line a total : Nat) (hf : ∀ f ∈ fields, LoadsField P f) (done : Nat) :
    P Unit (storeFields line a total fields done) := by
  induction fields generalizing done with
  | nil => exact hP.pure ()
  | cons f rest ih =>
    obtain ⟨hfirst, hrest⟩ := List.forall_mem_cons.mp hf
    cases f with
    | item value =>
      refine hP.bind hP.takeRegister fun r => hP.bind (hfirst r _) fun _ => ?_
      dsimp only
      split
      · exact hP.bind (hP.freeRegisters _) fun _ => hP.bind (hP.plain ..) fun _ => ih hrest _
      · exact ih hrest _
    | entry key value =>
      exact hP.bind hP.usedRegisters fun mark => hP.bind (hP.operand hfirst.1 _) fun _ =>
        hP.bind (hP.operand hfirst.2 _) fun _ => hP.bind (hP.freeRegistersTo mark) fun _ =>
          hP.bind (hP.plain ..) fun _ => ih hrest done

theorem loadTable (hf : ∀ f ∈ fields, LoadsField P f) (a : Nat) : P Unit (loadTable fields a) :=
  hP.bind hP.currentLine fun _ => hP.bind (hP.newTable ..) fun _ => hP.storeFields _ _ _ hf 0

theorem loadMethod (line a : Nat) (method : String) : P Unit (loadMethod line a method) := by
  refine hP.bind hP.takeRegister fun _ => hP.bind (hP.operand (hP.loads_constant _ _) _) fun key =>
    hP.bind (hP.plain ..) fun _ => ?_
  cases key with
  | register r => exact hP.freeRegister
  | constant k => exact hP.pure ()
  | upvalue u => exact hP.pure ()

theorem layOutCall {callee : Source} (hc : Loads P callee) (method : Option String)
    {args : List Source} (ha : ∀ s ∈ args, Loads P s) (line a : Nat) :
    P Int (layOutCall callee method args line a) := by
  refine hP.bind hP.currentLine fun outerLine => hP.bind (hP.setLine line) fun _ =>
    hP.bind (hc a 1) fun _ => ?_
  have hreceiver : P Unit (loadReceiver line a method) := by
    cases method with
    | some m => exact hP.loadMethod line a m
    | none => exact hP.pure ()
  have hfree : P Unit (freeReceiver method) := by
    cases method with
    | some m => exact hP.freeRegister
    | none => exact hP.pure ()
  exact hP.bind hreceiver fun _ => hP.bind (hP.loadAll ha) fun n =>
    hP.bind (hP.freeRegisters _) fun _ => hP.bind hfree fun _ =>
      hP.bind (hP.setLine outerLine) fun _ => hP.pure _

theorem finishCall (hp : ∀ a, P Int (prepare a)) (line a : Nat) (want : Int) :
    P Unit (finishCall prepare line a want) :=
  hP.bind (hp a) fun _ => hP.call ..

theorem finishTailCall (hp : ∀ a, P Int (prepare a)) (line a : Nat) :
    P Unit (finishTailCall prepare line a) :=
  hP.bind (hp a) fun _ => hP.tailCall ..

/-! ## Statements -/

/-- An assignment target whose parts load with the property. -/
def LoadsTarget (P : (α : Type) → LowerM α → Prop) : TargetSource → Prop
  | .name _ => True
  | .index table key => Loads P table ∧ Loads P key

theorem addressOf (line : Nat) {t : TargetSource} (ht : LoadsTarget P t) :
    P Address (addressOf line t) := by
  cases t with
  | index table key =>
    exact hP.bind hP.takeRegister fun t => hP.bind (ht.1 t 1) fun _ =>
      hP.bind hP.takeRegister fun k => hP.bind (ht.2 k 1) fun _ => hP.pure _
  | name x =>
    refine hP.bind (hP.slotOf? x) fun r => ?_
    cases r with
    | some r => exact hP.pure _
    | none =>
      refine hP.bind (hP.upvalueOf? x) fun u => ?_
      cases u with
      | some u => exact hP.pure _
      | none =>
        refine hP.bind hP.globalsOperand fun env => hP.bind (hP.constantIndex _) fun i => ?_
        refine hP.options (fun o => ?_) fun o o' h => by rw [h]
        split
        · exact hP.bind hP.takeRegister fun r =>
            hP.bind (hP.loadConstant ..) fun _ => hP.pure _
        · exact hP.pure _

theorem addressesOf (line : Nat) (ht : ∀ t ∈ targets, LoadsTarget P t) :
    P (List Address) (addressesOf line targets) := by
  induction targets with
  | nil => exact hP.pure []
  | cons t rest ih =>
    obtain ⟨hfirst, hrest⟩ := List.forall_mem_cons.mp ht
    exact hP.bind (hP.addressOf line hfirst) fun _ => hP.bind (ih hrest) fun _ => hP.pure _

theorem store (line value : Nat) (address : Address) : P Unit (store line value address) := by
  cases address with
  | register r => exact hP.plain ..
  | upvalue u => exact hP.plain ..
  | field table key => exact hP.plain ..
  | global env x key =>
    have hkey : P Nat (globalKey x key) := by
      cases key with
      | some r => exact hP.pure r
      | none => exact hP.bind (hP.constantIndex _) fun _ => hP.pure _
    refine hP.bind hkey fun key => ?_
    cases env <;> exact hP.plain ..

theorem storeAll (line : Nat) (addresses : List Address) (value : Nat) :
    P Unit (storeAll line addresses value) := by
  induction addresses generalizing value with
  | nil => exact hP.pure ()
  | cons address rest ih => exact hP.bind (hP.store line value address) fun _ => ih (value + 1)

theorem lowerAssign (ht : ∀ t ∈ targets, LoadsTarget P t) (hv : ∀ s ∈ values, Loads P s)
    (line : Nat) : P Unit (lowerAssign targets values line) :=
  hP.bind (hP.setLine line) fun _ => hP.bind hP.usedRegisters fun mark =>
    hP.bind (hP.addressesOf line ht) fun addresses => hP.bind hP.usedRegisters fun first =>
      hP.bind (hP.loadAdjusted _ hv line) fun _ =>
        hP.bind (hP.storeAll line addresses first) fun _ => hP.freeRegistersTo mark

theorem lowerCallStat (hp : ∀ a, P Int (prepare a)) (line : Nat) :
    P Unit (lowerCallStat prepare line) :=
  hP.bind (hP.setLine line) fun _ => hP.bind hP.takeRegister fun r =>
    hP.bind (hP.finishCall hp line r 0) fun _ => hP.freeRegister

theorem lowerReturnCall (hp : ∀ a, P Int (prepare a)) (callLine line : Nat) :
    P Unit (lowerReturnCall prepare callLine line) :=
  hP.bind (hP.setLine line) fun _ => hP.bind hP.takeRegister fun r =>
    hP.bind (hP.finishTailCall hp callLine r) fun _ => hP.bind hP.freeRegister fun _ => hP.ret ..

theorem lowerReturn (hv : ∀ s ∈ values, Loads P s) (line : Nat) :
    P Unit (lowerReturn values line) := by
  have hloaded : P Unit (lowerReturnLoaded values line) :=
    hP.bind (hP.loadAll hv) fun n => hP.bind (hP.freeRegisters _) fun _ =>
      hP.bind hP.usedRegisters fun _ => hP.ret ..
  refine hP.bind (hP.setLine line) fun _ => ?_
  split
  · exact hP.ret ..
  · next x load =>
    refine hP.bind (hP.slotOf? x) fun r => ?_
    cases r with
    | some r => exact hP.ret ..
    | none => exact hloaded
  · exact hloaded

end Placeless

end LuaLowering
