import LuaLowering.Proofs.Shape
import LuaLowering.Proofs.Lowering.Loop
import LuaLowering.Proofs.Lowering.Assignment
import LuaLowering.Proofs.Lowering.Function

/-!
# Lowering a syntax tree writes its code

The recursion over the syntax puts the contracts of the constructs together:
whatever is lowered has the shape of its syntax, and a tree whose lists are no
longer than a count of values can be is lowered without misusing the builder.
-/

namespace LuaLowering

variable {block : Block} {o : Options} {p : Prototype}

/-! ## The lists of a syntax tree -/

mutual

/-- No list of an expression is longer than `n`. -/
def Expr.ListsWithin (n : Nat) : Expr → Prop
  | .nil | .boolean _ | .vararg | .integer _ | .float _ | .string _ | .name _ => True
  | .paren inner => inner.ListsWithin n
  | .call c => c.ListsWithin n
  | .function f => f.ListsWithin n
  | .table fields => fields.length ≤ n ∧ Field.ListsWithin n fields
  | .index table key => table.ListsWithin n ∧ key.ListsWithin n
  | .unary _ e => e.ListsWithin n
  | .binary _ left right => left.ListsWithin n ∧ right.ListsWithin n
  | .concat operands => operands.length ≤ n ∧ Expr.AllWithin n operands

def Expr.AllWithin (n : Nat) : List Expr → Prop
  | [] => True
  | e :: rest => e.ListsWithin n ∧ Expr.AllWithin n rest

def Field.ListsWithin (n : Nat) : List Field → Prop
  | [] => True
  | .item value :: rest => value.ListsWithin n ∧ Field.ListsWithin n rest
  | .entry key value :: rest =>
    key.ListsWithin n ∧ value.ListsWithin n ∧ Field.ListsWithin n rest

def Call.ListsWithin (n : Nat) : Call → Prop
  | ⟨callee, _, args, _⟩ => callee.ListsWithin n ∧ args.length ≤ n ∧ Expr.AllWithin n args

def FunctionBody.ListsWithin (n : Nat) : FunctionBody → Prop
  | ⟨params, _, body, _, _⟩ => params.length ≤ n ∧ body.ListsWithin n

/-- No list of a block is longer than `n`. -/
def Block.ListsWithin (n : Nat) : Block → Prop
  | ⟨stats, result, _⟩ => stats.length ≤ n ∧ Stat.AllWithin n stats ∧
    match result with
    | none => True
    | some values => values.length ≤ n ∧ Expr.AllWithin n values

def Stat.AllWithin (n : Nat) : List Stat → Prop
  | [] => True
  | s :: rest => s.ListsWithin n ∧ Stat.AllWithin n rest

/-- No list of a statement is longer than `n`. -/
def Stat.ListsWithin (n : Nat) : Stat → Prop
  | .empty | .break _ | .label _ _ | .goto _ _ => True
  | .block body => body.ListsWithin n
  | .call c => c.ListsWithin n
  | .whileLoop cond body _ => cond.ListsWithin n ∧ body.ListsWithin n
  | .repeatLoop body cond _ => body.ListsWithin n ∧ cond.ListsWithin n
  | .ifChain arms => arms.length ≤ n ∧ Branch.ListsWithin n arms
  | .numericFor _ init limit step body _ _ =>
    init.ListsWithin n ∧ limit.ListsWithin n ∧
      (match step with
        | some e => e.ListsWithin n
        | none => True) ∧ body.ListsWithin n
  | .genericFor names values body _ =>
    names.length ≤ n ∧ values.length ≤ n ∧ Expr.AllWithin n values ∧ body.ListsWithin n
  | .assign targets values _ =>
    targets.length ≤ n ∧ Target.ListsWithin n targets ∧ values.length ≤ n ∧ Expr.AllWithin n values
  | .declare names values _ => names.length ≤ n ∧ values.length ≤ n ∧ Expr.AllWithin n values
  | .declareFunction _ f => f.ListsWithin n

def Branch.ListsWithin (n : Nat) : List Branch → Prop
  | [] => True
  | ⟨cond, body, _⟩ :: rest => cond.ListsWithin n ∧ body.ListsWithin n ∧ Branch.ListsWithin n rest

def Target.ListsWithin (n : Nat) : List Target → Prop
  | [] => True
  | .name _ :: rest => Target.ListsWithin n rest
  | .index table key :: rest =>
    table.ListsWithin n ∧ key.ListsWithin n ∧ Target.ListsWithin n rest

end

/-- The longest list that a count of values can be given for. -/
def maxListLength : Nat := 0x7ffffffe

theorem Field.length_parts (fields : List Field) :
    (Field.parts fields).length = fields.length := by
  induction fields with
  | nil => rw [Field.parts]; rfl
  | cons f rest ih => cases f <;> rw [Field.parts, List.length_cons, List.length_cons, ih]

theorem Target.length_sources (targets : List Target) :
    (Target.sources targets).length = targets.length := by
  induction targets with
  | nil => rw [Target.sources]; rfl
  | cons t rest ih => cases t <;> rw [Target.sources, List.length_cons, List.length_cons, ih]

/-! ## The recursion -/

section

variable {safe : Prop}

mutual

theorem Expr.lower_meets : ∀ e : Expr, (safe → e.ListsWithin maxListLength) →
    (Source.mk e e.lower).Meets safe ⟨e, e.shape⟩
  | .nil, _ => ⟨rfl, fun hw ha _ => by
      dsimp only
      rw [Expr.lower, ensures_currentLine_bind, Expr.shape]
      refine (loadNil_spec hw _ ha (by omega)).mono fun _ w' => ?_
      rintro ⟨hused, -, hload⟩
      refine ⟨hused, hload.mono fun S _ hcode hwant => hcode ?_⟩
      have hlt := hwant.2
      omega⟩
  | .boolean b, _ => .of_load rfl fun hw ha => by
      dsimp only
      rw [Expr.lower, ensures_currentLine_bind, Expr.shape]
      refine (plain_spec hw _ _ _ _ _).mono fun _ w' => ?_
      rintro ⟨hused, -, hload⟩
      have hb : (if b then 1 else 0) < 0x100 := by split <;> decide
      exact ⟨hused, hload.mono fun S _ hcode =>
        hcode (Site.keeps_abc (hw.reg_lt ha) (.of_narrow hb) .zero)⟩
  | .vararg, _ => ⟨rfl, fun hw ha hwant => by
      dsimp only
      rw [Expr.lower, ensures_currentLine_bind, Expr.shape]
      refine (vararg_spec hw _ (hw.reg_lt ha) hwant).mono fun _ w' => ?_
      rintro ⟨hused, -, hload⟩
      exact ⟨hused, hload⟩⟩
  | .integer n, _ => .of_load rfl fun hw ha => by
      dsimp only
      rw [Expr.lower, ensures_currentLine_bind, Expr.shape]
      exact loadConstant_spec hw _ (hw.reg_lt ha) _
  | .float x, _ => .of_load rfl fun hw ha => by
      dsimp only
      rw [Expr.lower, ensures_currentLine_bind, Expr.shape]
      exact loadConstant_spec hw _ (hw.reg_lt ha) _
  | .string s, _ => .of_load rfl fun hw ha => by
      dsimp only
      rw [Expr.lower, ensures_currentLine_bind, Expr.shape]
      exact loadConstant_spec hw _ (hw.reg_lt ha) _
  | .name x, _ => .of_load rfl fun hw ha => by
      dsimp only
      rw [Expr.lower, Expr.shape]
      exact loadName_spec hw x (hw.reg_lt ha)
  | .paren inner, h => .of_load rfl fun hw ha => by
      dsimp only
      rw [Expr.lower, Expr.shape]
      refine ((Expr.lower_meets inner h).load hw ha fun _ => by decide).mono fun _ w' => ?_
      rintro ⟨hused, hload⟩
      exact ⟨hused, hload.mono fun S _ hcode => hcode .one⟩
  | .call c, h => ⟨rfl, fun hw ha hwant => by
      dsimp only
      rw [Expr.lower, Call.lower_eq, Expr.shape]
      exact finishCall_spec (Call.prepare_prepares c h) c.line hwant hw ha⟩
  | .function f, h => .of_load rfl fun hw ha => by
      dsimp only
      rw [Expr.lower, Expr.shape]
      refine (FunctionBody.lower_loads f h hw ha).mono fun _ w' => ?_
      rintro ⟨hused, -, hload⟩
      exact ⟨hused, hload⟩
  | .table fields, h => .of_load rfl fun hw ha => by
      dsimp only
      rw [Expr.lower, Expr.shape]
      have hmeet := Field.sources_meet fields fun hs => (h hs).2
      refine loadTable_spec hmeet (fun hs => ?_) hw (hw.reg_lt ha)
      rw [Field.length_parts]
      exact Nat.le_trans (h hs).1 (by decide)
  | .index table key, h => .of_load rfl fun hw ha => by
      dsimp only
      rw [Expr.lower, Expr.shape]
      exact loadIndex_spec (Expr.lower_meets table fun hs => (h hs).1)
        (Expr.lower_meets key fun hs => (h hs).2) hw (hw.reg_lt ha)
  | .unary op e, h => .of_load rfl fun hw ha => by
      dsimp only
      rw [Expr.lower, Expr.shape]
      exact loadUnary_spec (Expr.lower_meets e h) hw op (hw.reg_lt ha)
  | .binary op left right, h => .of_load rfl fun hw ha => by
      dsimp only
      rw [Expr.lower, Expr.shape]
      exact loadBinary_spec (Expr.lower_meets left fun hs => (h hs).1)
        (Expr.lower_meets right fun hs => (h hs).2) hw op (hw.reg_lt ha)
  | .concat operands, h => .of_load rfl fun hw ha => by
      dsimp only
      rw [Expr.lower, Expr.shape]
      exact loadConcat_spec (Expr.sources_meet operands fun hs => (h hs).2) hw ha

theorem Expr.sources_meet : ∀ es : List Expr, (safe → Expr.AllWithin maxListLength es) →
    Sources.Meet safe (Expr.sources es) (Expr.parts es)
  | [], _ => by
      rw [Expr.sources, Expr.parts]
      exact .nil
  | e :: rest, h => by
      rw [Expr.sources, Expr.parts]
      exact .cons (Expr.lower_meets e fun hs => (h hs).1)
        (Expr.sources_meet rest fun hs => (h hs).2)

theorem Field.sources_meet : ∀ fields : List Field,
    (safe → Field.ListsWithin maxListLength fields) →
    FieldSources.Meet safe (Field.sources fields) (Field.parts fields)
  | [], _ => by
      rw [Field.sources, Field.parts]
      exact .nil
  | .item value :: rest, h => by
      rw [Field.sources, Field.parts]
      exact .cons (.item (Expr.lower_meets value fun hs => (h hs).1))
        (Field.sources_meet rest fun hs => (h hs).2)
  | .entry key value :: rest, h => by
      rw [Field.sources, Field.parts]
      exact .cons (.entry (Expr.lower_meets key fun hs => (h hs).1)
        (Expr.lower_meets value fun hs => (h hs).2.1))
        (Field.sources_meet rest fun hs => (h hs).2.2)

theorem Call.prepare_prepares : ∀ c : Call, (safe → c.ListsWithin maxListLength) →
    Prepares safe c.prepare c.calleePart c.method c.argParts
  | ⟨callee, method, args, line⟩, h => by
      intro hw ha
      rw [Call.prepare, Call.calleePart, Call.argParts]
      exact layOutCall_prepares (Expr.lower_meets callee fun hs => (h hs).1)
        (Expr.sources_meet args fun hs => (h hs).2.2) method line hw ha

/-- The call whose results alone a block returns. -/
theorem Expr.call_prepares : ∀ es : List Expr, (safe → Expr.AllWithin maxListLength es) →
    ∀ c : Call, es = [.call c] → Prepares safe c.prepare c.calleePart c.method c.argParts
  | [.call c], h, _, rfl => Call.prepare_prepares c fun hs => (h hs).1

theorem FunctionBody.lower_loads : ∀ f : FunctionBody, (safe → f.ListsWithin maxListLength) →
    LoadsFunction safe f.lower f.written
  | ⟨params, isVararg, body, line, lastLine⟩, h => by
      intro hw ha
      rw [FunctionBody.lower, FunctionBody.written]
      exact loadFunction_loads (writeFunction_writes (Block.lower_lowers body fun hs => (h hs).2)
        isVararg line lastLine) lastLine hw ha

theorem Block.lower_lowers : ∀ b : Block, (safe → b.ListsWithin maxListLength) →
    Lowers safe b.lower b.shape
  | ⟨stats, none, lastLine⟩, h => by
      rw [Block.lower, Block.shape, bind_pure_unit]
      exact Stat.lowerAll_lowers stats fun hs => (h hs).2.1
  | ⟨stats, some values, lastLine⟩, h => by
      have hstats : Lowers safe (Stat.lowerAll stats) (Stat.shapeAll stats) :=
        Stat.lowerAll_lowers stats fun hs => (h hs).2.1
      have hvalues := Expr.sources_meet values fun hs => (h hs).2.2.2
      have hcall : ∀ c, values = [.call c] →
          Prepares safe c.prepare c.calleePart c.method c.argParts :=
        Expr.call_prepares values fun hs => (h hs).2.2.2
      rw [Block.lower.eq_def]
      dsimp only
      split
      · next heq => cases heq
      · next c heq =>
        cases heq
        rw [Block.shape]
        exact lowerSeq_lowers hstats (lowerReturnCall_lowers (hcall c rfl) c.line lastLine)
      · next values' hno heq =>
        cases heq
        rw [Block.shape]
        · exact lowerSeq_lowers hstats (lowerReturn_lowers hvalues lastLine)
        · exact hno

theorem Stat.lowerAll_lowers : ∀ stats : List Stat, (safe → Stat.AllWithin maxListLength stats) →
    Lowers safe (Stat.lowerAll stats) (Stat.shapeAll stats)
  | [], _ => by
      rw [Stat.lowerAll, Stat.shapeAll]
      exact lowerSkip_lowers
  | s :: rest, h => by
      rw [Stat.lowerAll, Stat.shapeAll]
      exact lowerSeq_lowers (Stat.lower_lowers s fun hs => (h hs).1)
        (Stat.lowerAll_lowers rest fun hs => (h hs).2)

theorem Stat.lower_lowers : ∀ s : Stat, (safe → s.ListsWithin maxListLength) →
    Lowers safe s.lower s.shape
  | .empty, _ => by
      rw [Stat.lower, Stat.shape]
      exact lowerSkip_lowers
  | .break line, _ => by
      rw [Stat.lower, Stat.shape]
      exact lowerBreak_lowers line
  | .label x line, _ => by
      rw [Stat.lower]
      exact fun _ _ => ensures_reject
  | .goto x line, _ => by
      rw [Stat.lower]
      exact fun _ _ => ensures_reject
  | .block body, h => by
      rw [Stat.lower, Stat.shape]
      exact lowerScoped_lowers (Block.lower_lowers body h) body.lastLine
  | .call c, h => by
      rw [Stat.lower, Stat.shape]
      exact lowerCallStat_lowers (Call.prepare_prepares c h) c.line
  | .whileLoop cond body line, h => by
      rw [Stat.lower, Stat.shape]
      exact lowerWhile_lowers (Expr.lower_meets cond fun hs => (h hs).1)
        (Block.lower_lowers body fun hs => (h hs).2) line body.lastLine
  | .repeatLoop body cond line, h => by
      rw [Stat.lower, Stat.shape]
      exact lowerRepeat_lowers (Expr.lower_meets cond fun hs => (h hs).2)
        (Block.lower_lowers body fun hs => (h hs).1) line
  | .ifChain arms, h => by
      rw [Stat.lower, Stat.shape]
      exact lowerIf_lowers (Branch.arms_meet arms fun hs => (h hs).2)
  | .numericFor var init limit step body forLine doLine, h => by
      cases step with
      | some e =>
        rw [Stat.lower, Stat.shape]
        exact lowerNumericFor_lowers (Expr.lower_meets init fun hs => (h hs).1)
          (Expr.lower_meets limit fun hs => (h hs).2.1)
          (Expr.lower_meets e fun hs => (h hs).2.2.1)
          (Block.lower_lowers body fun hs => (h hs).2.2.2) forLine doLine body.lastLine
      | none =>
        rw [Stat.lower, Stat.shape]
        exact lowerNumericFor_lowers (Expr.lower_meets init fun hs => (h hs).1)
          (Expr.lower_meets limit fun hs => (h hs).2.1) (Source.meets_constant _ _)
          (Block.lower_lowers body fun hs => (h hs).2.2.2) forLine doLine body.lastLine
  | .genericFor names values body doLine, h => by
      rw [Stat.lower, Stat.shape]
      exact lowerGenericFor_lowers (Expr.sources_meet values fun hs => (h hs).2.2.1)
        (Block.lower_lowers body fun hs => (h hs).2.2.2) doLine body.lastLine
  | .assign targets values line, h => by
      rw [Stat.lower, Stat.shape]
      refine lowerAssign_lowers (fun hs => ?_) (Target.sources_meet targets fun hs => (h hs).2.1)
        (Expr.sources_meet values fun hs => (h hs).2.2.2) line
      rw [Target.length_sources]
      exact Nat.lt_succ_of_le (h hs).1
  | .declare names values line, h => by
      rw [Stat.lower, Stat.shape]
      exact lowerDeclare_lowers (fun hs => Nat.lt_succ_of_le (h hs).1)
        (Expr.sources_meet values fun hs => (h hs).2.2) line
  | .declareFunction x f, h => by
      rw [Stat.lower, Stat.shape]
      exact declareFunction_lowers (FunctionBody.lower_loads f h) f.line

theorem Branch.arms_meet : ∀ arms : List Branch, (safe → Branch.ListsWithin maxListLength arms) →
    Arms.Meet safe (Branch.arms arms) (Branch.parts arms)
  | [], _ => by
      rw [Branch.arms, Branch.parts]
      exact .nil
  | ⟨cond, body, line⟩ :: rest, h => by
      rw [Branch.arms, Branch.parts]
      exact .cons ⟨Expr.lower_meets cond fun hs => (h hs).1,
        Block.lower_lowers body fun hs => (h hs).2.1⟩ (Branch.arms_meet rest fun hs => (h hs).2.2)

theorem Target.sources_meet : ∀ targets : List Target,
    (safe → Target.ListsWithin maxListLength targets) →
    TargetSources.Meet safe (Target.sources targets) (Target.parts targets)
  | [], _ => by
      rw [Target.sources, Target.parts]
      exact .nil
  | .name x :: rest, h => by
      rw [Target.sources, Target.parts]
      exact .cons (.name x) (Target.sources_meet rest h)
  | .index table key :: rest, h => by
      rw [Target.sources, Target.parts]
      exact .cons (.index (Expr.lower_meets table fun hs => (h hs).1)
        (Expr.lower_meets key fun hs => (h hs).2.1)) (Target.sources_meet rest fun hs => (h hs).2.2)

end

/-! ## Whole chunks -/

/-- The outer variable of every chunk: the table of globals. -/
def Capture.globals : Capture := { name := "_ENV", inStack := true, index := 0 }

/-- A chunk is lowered to a function of its shape, with nothing around it but the
globals. -/
theorem compileChunk_spec (h : safe → block.ListsWithin maxListLength)
    (ho : o.registerLimit ≤ frameRegisters) :
    Ensures safe (compileChunk block) (.main o) fun p w =>
      p = w.draft.finish o ∧ w.draft.upvalues = #[.globals] ∧
        WrittenIs [] block.shape { options := o, draft := w.draft, outer := [] } := by
  unfold compileChunk
  rw [ensures_update_bind]
  refine (writeBody_spec (Block.lower_lowers block h) (w := { Workspace.main o with
      draft := { Draft.main o with lastLineDefined := block.lastLine } })
    ⟨.blank rfl rfl rfl (show 1 ≤ maxUpvalues by decide), fun e he => (List.not_mem_nil he).elim,
      trivial, rfl, ho⟩
    ⟨rfl, rfl, rfl⟩ (fun _ => by simp [Draft.main]) block.lastLine).bind fun _ w => ?_
  rintro ⟨hc, -, hwritten⟩
  rw [ensures_view_bind, finishFunction, bind_assoc, ensures_options_bind, bind_assoc,
    ensures_record_bind, ensures_pure_bind, ensures_record_bind, ensures_pure]
  have hopts : w.options = o := hc.options
  have hnone : w.enclosing = [] := List.forall₂_nil_left_iff.mp hc.enclosing
  have hbase := hc.base
  rw [hnone] at hbase
  refine ⟨by rw [id, hopts], hbase, hwritten { options := o, draft := w.draft, outer := [] }
    ⟨hopts.symm, ?_, ?_, ?_⟩ rfl rfl⟩
  · exact (Draft.Steady.refl 0 w.draft).becomes
  · rw [hnone]
    exact .nil
  · rw [hnone]
    rfl

end

theorem compile_eq_ok (h : compile block o = .ok p) :
    ∃ w, compileChunk block (.main o) = .ok p w := by
  unfold compile compileTraced at h
  split at h
  · next p' w hrun =>
    obtain rfl := Except.ok.inj h
    exact ⟨w, hrun⟩
  · cases h

/-- The code of a chunk that compiles is that of its syntax. -/
theorem compile_written (ho : o.registerLimit ≤ frameRegisters) (h : compile block o = .ok p) :
    ∃ d : Draft, p = d.finish o ∧ d.upvalues = #[.globals] ∧
      WrittenIs [] block.shape { options := o, draft := d, outer := [] } := by
  obtain ⟨w, hrun⟩ := compile_eq_ok h
  exact ⟨w.draft, (compileChunk_spec (fun hf : False => hf.elim) ho).of_ok hrun⟩

end LuaLowering
