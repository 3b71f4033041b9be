import LuaLowering.Proofs.Vetting.Expression
import LuaLowering.Proofs.Vetting.Statement

/-!
# Lowering vets the source

The recursion over the syntax puts the contracts of the constructs together:
lowering takes the source in order, finishes only what has no offence, and adds
nothing to the scope around it but what a statement declares there.
-/

namespace LuaLowering

open LowerM

/-- The names that a statement declares in the scope around it. -/
def Stat.declares : Stat → List String
  | .declare names _ _ => names
  | .declareFunction x _ => [x]
  | _ => []

/-- The names that a block declares in the scope around it. -/
def Block.declares (b : Block) : List String := b.stats.flatMap Stat.declares

/-! ## Offences of sources -/

theorem Expr.offencesIn_sources (es : List Expr) :
    Source.offencesIn (Expr.sources es) = Expr.offencesIn es := by
  induction es with
  | nil => rw [Expr.sources, Expr.offencesIn, Source.offencesIn, List.flatMap_nil]
  | cons e rest ih =>
    rw [Source.offencesIn] at ih
    rw [Expr.sources, Expr.offencesIn, Source.offencesIn, List.flatMap_cons, ih]

theorem Field.offences_sources (fields : List Field) :
    (Field.sources fields).flatMap (·.offences) = Field.offences fields := by
  induction fields with
  | nil => rw [Field.sources, Field.offences, List.flatMap_nil]
  | cons f rest ih =>
    cases f with
    | item value => rw [Field.sources, Field.offences, List.flatMap_cons, ih, FieldSource.offences]
    | entry key value =>
      rw [Field.sources, Field.offences, List.flatMap_cons, ih, FieldSource.offences,
        List.append_assoc]

theorem Target.offences_sources (targets : List Target) :
    (Target.sources targets).flatMap (·.offences) = Target.offences targets := by
  induction targets with
  | nil => rw [Target.sources, Target.offences, List.flatMap_nil]
  | cons t rest ih =>
    cases t with
    | name x =>
      rw [Target.sources, Target.offences, List.flatMap_cons, ih, TargetSource.offences,
        List.nil_append]
    | index table key =>
      rw [Target.sources, Target.offences, List.flatMap_cons, ih, TargetSource.offences,
        List.append_assoc]

/-! ## The recursion -/

mutual

theorem Expr.lower_vetted : ∀ e : Expr, (Source.mk e e.lower).Vetted
  | .nil => fun a want => by
      dsimp only
      rw [Expr.lower, Expr.offences]
      exact ⟨fun w => (Emit.loadNil_neutral w.draft.line a _).vets w⟩
  | .boolean b => fun a want => by
      dsimp only
      rw [Expr.lower, Expr.offences]
      exact ⟨fun w => (Emit.plain_neutral w.draft.line _ a _ 0).vets w⟩
  | .vararg => fun a want => by
      dsimp only
      rw [Expr.lower, Expr.offences]
      exact ⟨fun w => (Emit.vararg_neutral w.draft.line a want).vets w⟩
  | .integer n => fun a want => by
      dsimp only
      rw [Expr.lower, Expr.offences]
      exact ⟨fun w => (Emit.loadConstant_neutral w.draft.line a _).vets w⟩
  | .float x => fun a want => by
      dsimp only
      rw [Expr.lower, Expr.offences]
      exact ⟨fun w => (Emit.loadConstant_neutral w.draft.line a _).vets w⟩
  | .string s => fun a want => by
      dsimp only
      rw [Expr.lower, Expr.offences]
      exact ⟨fun w => (Emit.loadConstant_neutral w.draft.line a _).vets w⟩
  | .name x => fun a want => by
      dsimp only
      rw [Expr.lower, Expr.offences]
      exact loadName_neutral x a
  | .paren inner => fun a want => by
      dsimp only
      rw [Expr.lower, Expr.offences]
      exact Expr.lower_vetted inner a 1
  | .call c => fun a want => by
      dsimp only
      rw [Expr.lower, Expr.offences, Call.lower_eq]
      exact finishCall_neutral (Call.prepare_neutral c) c.line a want
  | .function f => fun a want => by
      dsimp only
      rw [Expr.lower, Expr.offences]
      exact FunctionBody.lower_neutral f a
  | .table fields => fun a want => by
      dsimp only
      rw [Expr.lower, Expr.offences, ← Field.offences_sources]
      exact loadTable_neutral (Field.sources_vetted fields) a
  | .index table key => fun a want => by
      dsimp only
      rw [Expr.lower, Expr.offences]
      exact loadIndex_neutral (Expr.lower_vetted table) (Expr.lower_vetted key) a
  | .unary op e => fun a want => by
      dsimp only
      rw [Expr.lower, Expr.offences]
      exact loadUnary_neutral (Expr.lower_vetted e) op a
  | .binary op left right => fun a want => by
      dsimp only
      rw [Expr.lower, Expr.offences]
      exact loadBinary_neutral (Expr.lower_vetted left) (Expr.lower_vetted right) op a
  | .concat operands => fun a want => by
      dsimp only
      rw [Expr.lower, Expr.offences, ← Expr.offencesIn_sources]
      exact loadConcat_neutral (Expr.sources_vetted operands) a

theorem Expr.sources_vetted : ∀ (es : List Expr), ∀ s ∈ Expr.sources es, s.Vetted
  | [] => by
      intro s hs
      rw [Expr.sources] at hs
      cases hs
  | e :: rest => by
      intro s hs
      rw [Expr.sources] at hs
      rcases List.mem_cons.mp hs with rfl | hmem
      · exact Expr.lower_vetted e
      · exact Expr.sources_vetted rest s hmem

theorem Field.sources_vetted : ∀ (fields : List Field), ∀ f ∈ Field.sources fields, f.Vetted
  | [] => by
      intro f hf
      rw [Field.sources] at hf
      cases hf
  | .item value :: rest => by
      intro f hf
      rw [Field.sources] at hf
      rcases List.mem_cons.mp hf with rfl | hmem
      · exact Expr.lower_vetted value
      · exact Field.sources_vetted rest f hmem
  | .entry key value :: rest => by
      intro f hf
      rw [Field.sources] at hf
      rcases List.mem_cons.mp hf with rfl | hmem
      · exact ⟨Expr.lower_vetted key, Expr.lower_vetted value⟩
      · exact Field.sources_vetted rest f hmem

theorem Call.prepare_neutral : ∀ (c : Call) (a : Nat), Neutral (c.prepare a) c.offences
  | ⟨callee, method, args, line⟩, a => by
      rw [Call.prepare, Call.offences, ← Expr.offencesIn_sources]
      exact layOutCall_neutral (Expr.lower_vetted callee) (Expr.sources_vetted args) method line a

/-- The call whose results alone a block returns. -/
theorem Expr.call_neutral : ∀ (es : List Expr) (c : Call), es = [.call c] →
    ∀ a, Neutral (c.prepare a) (Expr.offencesIn es)
  | [.call c], _, rfl => by
      intro a
      rw [Expr.offencesIn, Expr.offencesIn, Expr.offences, List.append_nil]
      exact Call.prepare_neutral c a

theorem FunctionBody.lower_neutral : ∀ (f : FunctionBody) (a : Nat), Neutral (f.lower a) f.offences
  | ⟨params, isVararg, body, line, lastLine⟩, a => by
      rw [FunctionBody.lower, FunctionBody.offences]
      exact loadFunction_neutral (fun w => writeFunction_vets (Block.lower_extends body) params
        isVararg line lastLine rfl) lastLine a

theorem Block.lower_extends : ∀ b : Block, Extends b.lower (fun loop => b.offences loop) b.declares
  | ⟨stats, none, lastLine⟩ => by
      have hstats := Stat.lowerAll_extends stats
      rw [Block.lower]
      simp only [Block.offences, Block.declares]
      simpa using hstats.bind (neutral_pure ()).extends
  | ⟨stats, some values, lastLine⟩ => by
      have hstats := Stat.lowerAll_extends stats
      have hvalues := Expr.sources_vetted values
      have hcall := Expr.call_neutral values
      rw [Block.lower.eq_def]
      simp only [Block.offences, Block.declares]
      rw [← List.append_nil (List.flatMap _ _)]
      split
      · next heq => cases heq
      · next c heq =>
        cases heq
        exact hstats.bind (lowerReturnCall_neutral (hcall c rfl) c.line lastLine).extends
      · next values' hno heq =>
        cases heq
        rw [← Expr.offencesIn_sources]
        exact hstats.bind (lowerReturn_neutral hvalues lastLine).extends

theorem Stat.lowerAll_extends : ∀ stats : List Stat,
    Extends (Stat.lowerAll stats) (fun loop => Stat.offencesIn loop stats)
      (stats.flatMap Stat.declares)
  | [] => by
      rw [Stat.lowerAll]
      simp only [Stat.offencesIn, List.flatMap_nil]
      exact (neutral_pure ()).extends
  | s :: rest => by
      rw [Stat.lowerAll]
      simp only [Stat.offencesIn, List.flatMap_cons]
      exact (Stat.lower_extends s).bind (Stat.lowerAll_extends rest)

theorem Stat.lower_extends : ∀ s : Stat,
    Extends s.lower (fun loop => s.offences loop) s.declares
  | .empty => by
      simp only [Stat.lower, Stat.offences, Stat.declares]
      exact (neutral_pure ()).extends
  | .break line => by
      simp only [Stat.lower, Stat.offences, Stat.declares]
      exact lowerBreak_extends line
  | .label x line => by
      simp only [Stat.lower, Stat.offences, Stat.declares]
      exact ⟨fun w => Or.inr (Or.inl rfl)⟩
  | .goto x line => by
      simp only [Stat.lower, Stat.offences, Stat.declares]
      exact ⟨fun w => Or.inr (Or.inl rfl)⟩
  | .block body => by
      simp only [Stat.lower, Stat.offences, Stat.declares]
      exact lowerScoped_extends (Block.lower_extends body) body.lastLine
  | .call c => by
      simp only [Stat.lower, Stat.offences, Stat.declares]
      exact (lowerCallStat_neutral (Call.prepare_neutral c) c.line).extends
  | .whileLoop cond body line => by
      simp only [Stat.lower, Stat.offences, Stat.declares]
      exact lowerWhile_extends (Block.lower_extends body) (Expr.lower_vetted cond) line
        body.lastLine
  | .repeatLoop body cond line => by
      simp only [Stat.lower, Stat.offences, Stat.declares]
      exact lowerRepeat_extends (Block.lower_extends body) (Expr.lower_vetted cond) line
  | .ifChain arms => by
      simp only [Stat.lower, Stat.offences, Stat.declares]
      exact lowerIf_extends (Branch.arms_vetted arms)
  | .numericFor var init limit step body forLine doLine => by
      cases step with
      | some step =>
        have hfor := lowerNumericFor_extends (Block.lower_extends body) (Expr.lower_vetted init)
          (Expr.lower_vetted limit) (Expr.lower_vetted step) var forLine doLine body.lastLine
        simp only [Stat.lower, Stat.offences, Stat.declares]
        simpa [Source.offencesIn] using hfor
      | none =>
        have hfor := lowerNumericFor_extends (Block.lower_extends body) (Expr.lower_vetted init)
          (Expr.lower_vetted limit) (Source.vetted_constant (.integer 1) (.integer 1) rfl) var
          forLine doLine body.lastLine
        simp only [Stat.lower, Stat.offences, Stat.declares]
        simpa [Source.offencesIn, Source.constant, Expr.offences] using hfor
  | .genericFor names values body doLine => by
      simp only [Stat.lower, Stat.offences, Stat.declares]
      rw [← Expr.offencesIn_sources]
      exact lowerGenericFor_extends (Block.lower_extends body) (Expr.sources_vetted values) names
        doLine body.lastLine
  | .assign targets values line => by
      simp only [Stat.lower, Stat.offences, Stat.declares]
      rw [← Expr.offencesIn_sources, ← Target.offences_sources]
      exact (lowerAssign_neutral (Target.sources_vetted targets) (Expr.sources_vetted values)
        line).extends
  | .declare names values line => by
      simp only [Stat.lower, Stat.offences, Stat.declares]
      rw [← Expr.offencesIn_sources]
      exact ⟨lowerDeclare_vets (Expr.sources_vetted values) names line⟩
  | .declareFunction x f => by
      simp only [Stat.lower, Stat.offences, Stat.declares]
      refine ⟨fun w => ((setLine_neutral f.line).vets w).andThen fun _ w₁ h₁ => ?_⟩
      rw [vets_here_bind]
      refine (declareLocal_vets x _ w₁).andThen fun r w₂ h₂ => ?_
      refine ((FunctionBody.lower_neutral f r).vets w₂).mono fun _ w₃ h₃ => ?_
      exact h₁.1.andDeclares h₁.2 (h₂.alike h₃.1 h₃.2)

theorem Branch.arms_vetted : ∀ arms : List Branch,
    ArmsVetted (Branch.arms arms) fun loop => Branch.offences loop arms
  | [] => by
      simp only [Branch.arms, Branch.offences]
      exact .nil
  | ⟨cond, body, line⟩ :: rest => by
      simp only [Branch.arms, Branch.offences]
      have hcond : (Arm.mk ⟨cond, cond.lower⟩ body.lower line body.lastLine).cond.Vetted :=
        Expr.lower_vetted cond
      exact .cons hcond (Block.lower_extends body) (Branch.arms_vetted rest)

theorem Target.sources_vetted : ∀ (targets : List Target), ∀ t ∈ Target.sources targets, t.Vetted
  | [] => by
      intro t ht
      rw [Target.sources] at ht
      cases ht
  | .name x :: rest => by
      intro t ht
      rw [Target.sources] at ht
      rcases List.mem_cons.mp ht with rfl | hmem
      · trivial
      · exact Target.sources_vetted rest t hmem
  | .index table key :: rest => by
      intro t ht
      rw [Target.sources] at ht
      rcases List.mem_cons.mp ht with rfl | hmem
      · exact ⟨Expr.lower_vetted table, Expr.lower_vetted key⟩
      · exact Target.sources_vetted rest t hmem

end

end LuaLowering
