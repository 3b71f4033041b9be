import LuaLowering.Proofs.Representation

/-!
# Any history of the builder

The builder can be driven by hand: its steps may be taken in any order, also after
one of them has rejected the chunk, and functions may be opened inside others. The
states that can come about in this way are the reachable ones. In all of them every
function is sound, and from then on its registers and upvalues only grow.

A step that only looks is an operation too. A misuse of the builder is not part of a
history, since nothing is left to go on with.
-/

namespace LuaLowering

open LowerM

variable {α : Type} {m : LowerM α} {w w' : Workspace} {p : Draft → Prop} {o : Options}

/-- The operations that a caller may use. -/
inductive Operation : {α : Type} → LowerM α → Prop
  | look {α : Type} (f : Draft → α) : Operation (view f)
  | setLine (line : Nat) : Operation (setLine line)
  -- registers
  | takeRegister : Operation takeRegister
  | takeRegisters (n : Nat) : Operation (takeRegisters n)
  | freeRegister : Operation freeRegister
  | freeRegisters (n : Nat) : Operation (freeRegisters n)
  | freeRegistersTo (mark : Nat) : Operation (freeRegistersTo mark)
  -- scopes and locals
  | openScope (breakable : Bool) : Operation (openScope breakable)
  | closeScope (endPc : Nat) : Operation (closeScope endPc)
  | addBreak (pc line : Nat) : Operation (addBreak pc line)
  | closeLevel : Operation closeLevel
  | closeCaptured (line : Nat) : Operation (closeCaptured line)
  | declareLocal (x : String) (startPc : Nat) : Operation (declareLocal x startPc)
  | slotOf (x : String) : Operation (slotOf? x)
  | prolongLocals (first past delta : Nat) : Operation (prolongLocalsBy first past delta)
  -- outer variables and constants
  | upvalueOf (x : String) : Operation (upvalueOf? x)
  | constantIndex (k : Constant) : Operation (constantIndex k)
  -- code
  | emit (line : Nat) (i : Instruction) : Operation (emit line i)
  | aimJump (pc target : Nat) : Operation (aimJump pc target)
  | offsetFromHere (target : Nat) : Operation (offsetFromHere target)
  | abc (line : Nat) (op : Opcode) (a b c : Nat) : Operation (Emit.abc line op a b c)
  | abx (line : Nat) (op : Opcode) (a bx : Nat) : Operation (Emit.abx line op a bx)
  | asbx (line : Nat) (op : Opcode) (a : Nat) (offset : Int) :
      Operation (Emit.asbx line op a offset)
  | move (line a b : Nat) : Operation (Emit.move line a b)
  | loadNil (line a n : Nat) : Operation (Emit.loadNil line a n)
  | loadBool (line a b c : Nat) : Operation (Emit.loadBool line a b c)
  | loadConstant (line a : Nat) (k : Constant) : Operation (Emit.loadConstant line a k)
  | vararg (line a : Nat) (n : Int) : Operation (Emit.vararg line a n)
  | closure (line a bx : Nat) : Operation (Emit.closure line a bx)
  | newTable (line a items entries : Nat) : Operation (Emit.newTable line a items entries)
  | setList (line a b c : Nat) : Operation (Emit.setList line a b c)
  | getTable (line a b c : Nat) : Operation (Emit.getTable line a b c)
  | setTable (line a b c : Nat) : Operation (Emit.setTable line a b c)
  | getUpval (line a b : Nat) : Operation (Emit.getUpval line a b)
  | setUpval (line a b : Nat) : Operation (Emit.setUpval line a b)
  | getTabUp (line a b c : Nat) : Operation (Emit.getTabUp line a b c)
  | setTabUp (line a b c : Nat) : Operation (Emit.setTabUp line a b c)
  | call (line a : Nat) (args results : Int) : Operation (Emit.call line a args results)
  | tailCall (line a : Nat) (args : Int) : Operation (Emit.tailCall line a args)
  | ret (line a : Nat) (n : Int) : Operation (Emit.ret line a n)
  | forPrep (line a : Nat) (offset : Int) : Operation (Emit.forPrep line a offset)
  | forLoop (line a : Nat) (offset : Int) : Operation (Emit.forLoop line a offset)
  | tForCall (line a c : Nat) : Operation (Emit.tForCall line a c)
  | tForLoop (line a : Nat) (offset : Int) : Operation (Emit.tForLoop line a offset)
  | jump (line close : Nat) (offset : Int) : Operation (Emit.jump line close offset)
  | test (line a c : Nat) : Operation (Emit.test line a c)
  | testSet (line a b c : Nat) : Operation (Emit.testSet line a b c)
  | self (line a b c : Nat) : Operation (Emit.self line a b c)
  | unary (line : Nat) (op : UnaryOp) (a b : Nat) : Operation (Emit.unary line op a b)
  | binary (line : Nat) (op : BinaryOp) (a b c : Nat) : Operation (Emit.binary line op a b c)
  -- lowering
  | stat (s : Stat) : Operation s.lower
  | block (b : Block) : Operation b.lower
  | expr (e : Expr) (a : Nat) (want : Int) : Operation (e.lower a want)
  | callExpr (c : Call) (a : Nat) (want : Int) : Operation (c.lower a want)
  | tailCallExpr (c : Call) (a : Nat) : Operation (c.lowerTail a)
  | function (f : FunctionBody) (a : Nat) : Operation (f.lower a)
  | operand (e : Expr) (kinds : OperandKinds) : Operation (operand e.source kinds)
  | globals : Operation globalsOperand

/-- What holds of the steps of the builder and of looking holds of every operation. -/
theorem Operation.of_stepwise {P : (α : Type) → LowerM α → Prop} (hP : Stepwise P)
    (hview : ∀ {α : Type} (f : Draft → α), P α (view f)) (h : Operation m) : P α m := by
  cases h with
  | look f => exact hview f
  | setLine line => exact hP.setLine line
  | takeRegister => exact hP.takeRegister
  | takeRegisters n => exact hP.takeRegisters n
  | freeRegister => exact hP.freeRegister
  | freeRegisters n => exact hP.freeRegisters n
  | freeRegistersTo mark => exact hP.freeRegistersTo mark
  | openScope breakable => exact hP.openScope breakable
  | closeScope endPc => exact hP.closeScope endPc
  | addBreak pc line => exact hP.addBreak pc line
  | closeLevel => exact hP.closeLevel
  | closeCaptured line => exact hP.closeCaptured line
  | declareLocal x startPc => exact hP.declareLocal x startPc
  | slotOf x => exact hP.slotOf? x
  | prolongLocals first past delta =>
    refine hP.bind (hview _) fun locals => ?_
    split
    · exact hP.prolongLocals first past delta
    · exact hP.misuse _
  | upvalueOf x => exact hP.upvalueOf? x
  | constantIndex k => exact hP.constantIndex k
  | emit | abc | abx => exact hP.emit _ _
  | aimJump pc target => exact hP.aimJump pc target
  | offsetFromHere target => exact hP.offsetFromHere target
  | asbx | forPrep | forLoop | tForLoop | jump => exact hP.asbx _ _ _ _
  | move | loadBool | setList | getTable | setTable | getUpval | setUpval | getTabUp | setTabUp
  | tForCall | test | testSet | self | unary => exact hP.plain _ _ _ _ _
  | loadNil line a n => exact hP.loadNil line a n
  | loadConstant line a k => exact hP.loadConstant line a k
  | vararg line a n => exact hP.vararg line a n
  | closure line a bx => exact hP.closure line a bx
  | newTable line a items entries => exact hP.newTable line a items entries
  | call line a args results => exact hP.call line a args results
  | tailCall line a args => exact hP.tailCall line a args
  | ret line a n => exact hP.ret line a n
  | binary line op a b c => exact hP.binary line op a b c
  | stat s => exact hP.stat s
  | block b => exact hP.block b
  | expr e a want => exact hP.expr e a want
  | callExpr c a want =>
    rw [Call.lower_eq]
    exact hP.finishCall (hP.prepare c) c.line a want
  | tailCallExpr c a => exact hP.finishTailCall (hP.prepare c) c.line a
  | function f a => exact hP.functionBody f a
  | operand e kinds => exact hP.operand (hP.expr e) kinds
  | globals => exact hP.globalsOperand

theorem Operation.evolving (h : Operation m) : Evolving α m :=
  h.of_stepwise evolving_stepwise evolving_view

/-! ## Histories -/

/-- What can become of a workspace by operations, of which some may reject the
chunk, and by functions that are opened inside and worked on in the same way. -/
inductive History : Workspace → Workspace → Prop
  | start (w : Workspace) : History w w
  | finished {w w₁ w₂ : Workspace} {α : Type} {m : LowerM α} {x : α} (h : History w w₁)
      (hm : Operation m) (hrun : m w₁ = .ok x w₂) : History w w₂
  | rejected {w w₁ w₂ : Workspace} {α : Type} {m : LowerM α} {why : Rejection} (h : History w w₁)
      (hm : Operation m) (hrun : m w₁ = .error (.rejected why) w₂) : History w w₂
  | nested {w w₁ w₂ : Workspace} (h : History w w₁) (hinside : History w₁.enter w₂) :
      History w w₂.leave

/-- The workspaces that can come about under some options. -/
inductive Reachable (o : Options) : Workspace → Prop
  | fresh : Reachable o (.fresh o)
  | main : Reachable o (.main o)
  | history {w w' : Workspace} (h : Reachable o w) (hist : History w w') : Reachable o w'
  -- a function that is opened is worked on before it is left again
  | inside {w : Workspace} (h : Reachable o w) : Reachable o w.enter
  -- and handed over when it is left
  | handedOver {w : Workspace} (h : Reachable o w) : Reachable o { w with enclosing := [] }

theorem History.evolves (h : History w w') : w.Evolves w' := by
  induction h with
  | start w => exact .refl w
  | finished _ hm hrun ih => exact ih.trans ((hm.evolving _).of_ok hrun)
  | rejected _ hm hrun ih => exact ih.trans ((hm.evolving _).of_rejected hrun)
  | nested _ _ ih ih' => exact ih.trans ih'.leave

theorem Draft.sound_fresh (o : Options) : (Draft.fresh o).Sound where
  lines := rfl
  used := Nat.le_refl _
  names := by
    refine ⟨fun v hv => ?_, fun i hi => ?_, List.nodup_nil, nofun, fun i v hv => ?_⟩
    · cases Array.not_mem_empty v hv
    · cases hi
    · simp [Draft.fresh] at hv
  upvalues := fun i j x y hx => by simp [Draft.fresh] at hx
  count := Nat.zero_le _
  constants := fun i j x y hx => by simp [Draft.fresh] at hx

theorem Draft.sound_main (o : Options) : (Draft.main o).Sound := by
  have hfresh := sound_fresh o
  refine ⟨hfresh.lines, hfresh.used, hfresh.names, ?_, (by decide : 1 ≤ maxUpvalues),
    hfresh.constants⟩
  exact hfresh.upvalues.push (x := ⟨"_ENV", true, 0⟩) fun y hy => absurd hy (Array.not_mem_empty y)

/-- Every function of a workspace is sound, and works with the options' limit. -/
structure Workspace.Sound (o : Options) (w : Workspace) : Prop where
  options : w.options = o
  drafts : ∀ d ∈ w.stack, d.Sound
  limit : ∀ d ∈ w.stack, d.registers.limit = o.registerLimit

/-- What evolving keeps of one function it keeps of all. -/
theorem forall_of_evolves {ds ds' : List Draft} (h : List.Forall₂ Draft.Evolves ds ds')
    (hp : ∀ d d' : Draft, d.Evolves d' → p d → p d') (hds : ∀ d ∈ ds, p d) : ∀ d' ∈ ds', p d' := by
  induction h with
  | nil => exact hds
  | cons he _ ih =>
    obtain ⟨hd, hrest⟩ := List.forall_mem_cons.mp hds
    exact List.forall_mem_cons.mpr ⟨hp _ _ he hd, ih hrest⟩

theorem Workspace.Sound.evolves (h : w.Sound o) (he : w.Evolves w') : w'.Sound o :=
  ⟨he.options.trans h.options,
    forall_of_evolves he.stack (fun _ _ hd => hd.sound) h.drafts,
    forall_of_evolves he.stack (fun _ _ hd hlimit => hd.limit.trans hlimit) h.limit⟩

theorem Reachable.sound (h : Reachable o w) : w.Sound o := by
  induction h with
  | fresh =>
    refine ⟨rfl, ?_, ?_⟩ <;> rw [Workspace.stack, Workspace.fresh] <;>
      simp only [List.forall_mem_singleton]
    · exact Draft.sound_fresh o
    · rfl
  | main =>
    refine ⟨rfl, ?_, ?_⟩ <;> rw [Workspace.stack, Workspace.main] <;>
      simp only [List.forall_mem_singleton]
    · exact Draft.sound_main o
    · rfl
  | history _ hist ih => exact ih.evolves hist.evolves
  | @inside w _ ih =>
    have hfresh := Draft.sound_fresh w.options
    refine ⟨ih.options, ?_, ?_⟩ <;> rw [Workspace.stack, Workspace.enter] <;>
      simp only [List.forall_mem_cons]
    · refine ⟨?_, List.forall_mem_cons.mp ih.drafts⟩
      exact ⟨hfresh.lines, hfresh.used, hfresh.names, hfresh.upvalues, hfresh.count,
        hfresh.constants⟩
    · exact ⟨congrArg Options.registerLimit ih.options, List.forall_mem_cons.mp ih.limit⟩
  | @handedOver w _ ih =>
    refine ⟨ih.options, ?_, ?_⟩ <;> rw [Workspace.stack] <;> simp only [List.forall_mem_singleton]
    · exact ih.drafts _ List.mem_cons_self
    · exact ih.limit _ List.mem_cons_self

/-- What holds of a function at its start and lasts while it evolves holds of all functions. -/
theorem Reachable.forall_stack (h : Reachable o w) (hfresh : ∀ o, p (.fresh o))
    (hmain : p (.main o)) (hp : ∀ d d' : Draft, d.Evolves d' → p d → p d') :
    ∀ d ∈ w.stack, p d := by
  induction h with
  | fresh => exact List.forall_mem_singleton.mpr (hfresh o)
  | main => exact List.forall_mem_singleton.mpr hmain
  | history _ hist ih => exact forall_of_evolves hist.evolves.stack hp ih
  | @inside w _ ih =>
    exact List.forall_mem_cons.mpr ⟨hp _ _ (Draft.evolves_heading ..) (hfresh w.options), ih⟩
  | handedOver _ ih => exact List.forall_mem_singleton.mpr (ih _ List.mem_cons_self)

/-- Every local of a function under construction is in a register within the limit. -/
theorem Reachable.slotsFit (h : Reachable o w) : ∀ d ∈ w.stack, d.SlotsFit :=
  h.forall_stack (fun _ v hv => absurd hv (Array.not_mem_empty v))
    (fun v hv => absurd hv (Array.not_mem_empty v)) fun _ _ he => he.slots

/-- The workspaces that a compilation may have come to. Steps are taken in any order, and a
function that was entered is told its lines and its parameters. -/
inductive Underway (o : Options) : Workspace → Prop
  | reached {w : Workspace} (h : Reachable o w) : Underway o w
  | step {w w' : Workspace} {α : Type} {m : LowerM α} {x : α} (h : Underway o w) (hm : Operation m)
      (hrun : m w = .ok x w') : Underway o w'
  | entered {w : Workspace} (h : Underway o w) : Underway o w.enter
  | headed {w : Workspace} (h : Underway o w) (line lineDefined lastLineDefined paramCount : Nat)
      (isVararg : Bool) : Underway o
        { w with
          draft := { w.draft with line, lineDefined, lastLineDefined, paramCount, isVararg } }

theorem Underway.forall_stack (h : Underway o w) (hfresh : ∀ o, p (.fresh o)) (hmain : p (.main o))
    (hp : ∀ d d' : Draft, d.Evolves d' → p d → p d') : ∀ d ∈ w.stack, p d := by
  induction h with
  | reached h => exact h.forall_stack hfresh hmain hp
  | step _ hm hrun ih => exact forall_of_evolves ((hm.evolving _).of_ok hrun).stack hp ih
  | @entered w _ ih =>
    exact List.forall_mem_cons.mpr ⟨hp _ _ (Draft.evolves_heading ..) (hfresh w.options), ih⟩
  | headed _ _ _ _ _ _ ih =>
    obtain ⟨hdraft, henclosing⟩ := List.forall_mem_cons.mp ih
    exact List.forall_mem_cons.mpr ⟨hp _ _ (Draft.evolves_heading ..) hdraft, henclosing⟩

/-- What is on record of a function stays so: its frame does not shrink, and its
upvalues stay where they are and as they are. -/
structure Draft.Remembers (d d' : Draft) : Prop where
  peak : d.registers.peak ≤ d'.registers.peak
  upvalues : Keeps d.upvalues d'.upvalues

/-- Whatever was done with the builder, every function under construction is sound
and within the limit of registers; and whatever is done next, what is on record of
it stays so. -/
theorem builder_sound {o : Options} {w : Workspace} (h : Reachable o w) :
    (∀ d ∈ w.stack, d.Sound ∧ d.registers.peak ≤ o.registerLimit) ∧
      ∀ w', History w w' → List.Forall₂ Draft.Remembers w.stack w'.stack := by
  refine ⟨fun d hd => ⟨h.sound.drafts d hd, ?_⟩, fun w' hist => ?_⟩
  · exact Nat.le_trans d.registers.peak_le (Nat.le_of_eq (h.sound.limit d hd))
  · exact hist.evolves.stack.imp fun d d' he => ⟨he.peak, he.upvalues⟩

/-- A statement that is rejected leaves its scope open and its local in place. -/
theorem builder_sound_of_rejected :
    let o : Options := { registerLimit := 3 }
    let f : Stat := .declareFunction "f" ⟨["x"], false, ⟨[], some [.name "f", .name "g"], 2⟩, 1, 2⟩
    let s : Stat := .block ⟨[.declare ["f"] [.name "f"] 3, .goto "done" 4], none, 5⟩
    ∃ w why w', f.lower (.main o) = .ok () w ∧ s.lower w = .error (.rejected why) w' ∧
      w'.draft.depth = 2 ∧ w'.used = 2 ∧ Reachable o w' ∧ w'.draft.Sound := by
  intro o f s
  have hrun : (match f.lower (.main o) with
      | .ok _ w =>
        match s.lower w with
        | .error (.rejected _) w' => decide (w'.draft.depth = 2 ∧ w'.used = 2)
        | _ => false
      | _ => false) = true := by decide +kernel
  cases hf : f.lower (.main o) with
  | error e w =>
    rw [hf] at hrun
    cases hrun
  | ok u w =>
    rw [hf] at hrun
    dsimp only at hrun
    split at hrun
    · next why w' hs =>
      have hreach : Reachable o w' :=
        .history .main ((History.start _).finished (.stat f) hf |>.rejected (.stat s) hs)
      have hsound := (builder_sound hreach).1 _ List.mem_cons_self
      exact ⟨w, why, w', rfl, hs, (of_decide_eq_true hrun).1, (of_decide_eq_true hrun).2, hreach,
        hsound.1⟩
    · cases hrun

end LuaLowering
