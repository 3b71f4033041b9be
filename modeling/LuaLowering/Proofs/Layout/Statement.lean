import LuaLowering.Proofs.Layout.Branches
import LuaLowering.Proofs.Stores

/-!
# Where the code of statements leads

The code of a statement leads nowhere but into itself or to its end. What it leaves open are
its breaks, whose places `Stat.breaks` lists: those of the statements and blocks in it, but
not those inside a loop or a function, which are closed there.
-/

namespace LuaLowering

open LowerM

variable {w w' : Workspace} {lo : Nat} {values : List Source} {targets : List TargetSource}

/-! ## Where breaks are -/

mutual

/-- The places of the jumps that a statement, lowered from a state, leaves to the loop
around it. -/
def Stat.breaks : Stat → Workspace → List Nat
  | .break _, w => [w.draft.pc]
  | .block body, w => body.breaks (stateAfter (openScope false) w)
  | .ifChain arms, w => Branch.breaks arms w
  | _, _ => []

/-- The places of the breaks of a block. -/
def Block.breaks : Block → Workspace → List Nat
  | ⟨stats, _, _⟩, w => Stat.breaksAll stats w

/-- The places of the breaks of statements that are lowered one after another. -/
def Stat.breaksAll : List Stat → Workspace → List Nat
  | [], _ => []
  | s :: rest, w => s.breaks w ++ Stat.breaksAll rest (stateAfter s.lower w)

/-- The places of the breaks of the arms of an `if`. -/
def Branch.breaks : List Branch → Workspace → List Nat
  | [], _ => []
  | ⟨cond, body, line⟩ :: rest, w =>
    body.breaks (stateAfter (openScope false)
      (stateAfter (branchUnless ⟨cond, cond.lower⟩ line) w)) ++
    Branch.breaks rest (stateAfter
      (passArm ⟨⟨cond, cond.lower⟩, body.lower, line, body.lastLine⟩) w)

end

/-! ## Statements without a body -/

/-- What leaves the scopes alone has no breaks. -/
theorem carriesFrom_of_neutral {m : LowerM Unit} {os : List Offence} (hm : Neutral m os)
    (hin : ∀ w : Workspace, Ensures False m w fun _ w' => w.Contained w.draft.pc w') :
    CarriesFrom m fun _ => [] := fun w =>
  ((hin w).and (hm.vets w).ensures).mono fun _ _ h => .of_contained h.1 h.2.1.draft.scopes

theorem lowerBreak_carries (line : Nat) : CarriesFrom (lowerBreak line) fun w => [w.draft.pc] := by
  intro w
  refine (asbx_carries w.draft.pc line 0 (.inl rfl) zero_le_maxOffset (by omega)
    (Int.le_refl 0)).bind fun pc w₁ h => ?_
  obtain ⟨rfl, hpc, -, -, hcarries⟩ := h
  rw [addBreak, ensures_view_bind, Scope.addBreak?_eq]
  obtain ⟨new, hnew, hscopes⟩ := hcarries.scopes
  split
  · next scopes hsome =>
      obtain rfl : Scope.addBreaks _ w₁.draft.scopes = scopes := by
        split at hsome
        · exact Option.some.inj hsome
        · cases hsome
      refine ⟨?_, fun pc hmem => ?_, new, hnew, ?_⟩
      · exact hcarries.toContained.change rfl (fun _ _ _ h => h) rfl fun _ => .inl rfl
      · obtain rfl := List.mem_singleton.mp hmem
        exact ⟨le_rfl, hpc ▸ Nat.lt_succ_self _⟩
      · show (Scope.addBreaks _ w₁.draft.scopes).map Scope.bare = _
        rw [Scope.map_bare_addBreaks, hscopes]
        simp [Scope.addBreaks_nil]
  · exact ensures_reject

section Calls

variable {prepare : Nat → LowerM Int} (hp : ∀ {w : Workspace} {a : Nat}, a < w.used →
  Ensures False (prepare a) w fun _ w' => w.Straight a w')

include hp

theorem finishCall_straight (line : Nat) (want : Int) (ha : a < w.used) :
    Ensures False (finishCall prepare line a want) w fun _ w' => w.Straight a w' := by
  refine (hp ha).bind fun n w₁ h₁ => ?_
  exact (call_straight line n want).mono fun _ w₂ h₂ => h₁.trans h₂

theorem finishTailCall_straight (line : Nat) (ha : a < w.used) :
    Ensures False (finishTailCall prepare line a) w fun _ w' => w.Straight a w' := by
  refine (hp ha).bind fun n w₁ h₁ => ?_
  refine (countField_ensures n).bind fun b w₂ h => ?_
  obtain ⟨rfl, -⟩ := h
  exact (plain_straight line b rfl).mono fun _ w₃ h₃ => h₁.trans h₃.1

theorem lowerCallStat_contained (line : Nat) :
    Ensures False (lowerCallStat prepare line) w fun _ w' => w.Contained w.draft.pc w' := by
  refine (setLine_straight w.used line).bind fun _ w₁ h₁ => ?_
  refine takeRegister_writes.bind fun r w₂ h₂ => ?_
  obtain ⟨hwrites, rfl, hused, -⟩ := h₂
  refine (finishCall_straight hp line 0 (by omega)).bind fun _ w₃ h₃ => ?_
  refine (freeRegisters_straight w.used 1).mono fun _ w₄ h₄ => ?_
  rw [h₁.2] at h₃
  exact (h₁.1.trans ((hwrites.straight_nil _).trans (h₃.trans h₄.1))).contained le_rfl

end Calls

/-! ## Returns -/

theorem ret_contained (line a : Nat) (n : Int) (lo : Nat) :
    Ensures False (Emit.ret line a n) w fun _ w' => w.Contained lo w' := by
  refine (countField_ensures n).bind fun b w₁ h => ?_
  obtain ⟨rfl, -⟩ := h
  refine (plain_writes line .ret a b 0).mono fun _ w₂ h₂ => h₂.1.contained ?_
  exact Instruction.staysIn_of_no_ways (by simp [Instruction.ways_eq])

theorem lowerReturnCall_contained {prepare : Nat → LowerM Int}
    (hp : ∀ {w : Workspace} {a : Nat}, a < w.used →
      Ensures False (prepare a) w fun _ w' => w.Straight a w') (callLine line : Nat) :
    Ensures False (lowerReturnCall prepare callLine line) w fun _ w' =>
      w.Contained w.draft.pc w' := by
  refine (setLine_straight w.used line).bind fun _ w₁ h₁ => ?_
  refine takeRegister_writes.bind fun r w₂ h₂ => ?_
  obtain ⟨hwrites, rfl, hused, -⟩ := h₂
  refine (finishTailCall_straight hp callLine (by omega)).bind fun _ w₃ h₃ => ?_
  refine (freeRegisters_straight w.used 1).bind fun _ w₄ h₄ => ?_
  refine (ret_contained line w₁.used allValues w.draft.pc).mono fun _ w₅ h₅ => ?_
  rw [h₁.2] at h₃
  have hcall : w.Straight w.used w₄ := h₁.1.trans ((hwrites.straight_nil _).trans (h₃.trans h₄.1))
  exact (hcall.contained le_rfl).trans h₅

theorem lowerReturnLoaded_contained (hs : ∀ s ∈ values, s.Tidy) (line : Nat)
    (hlo : lo ≤ w.draft.pc) :
    Ensures False (lowerReturnLoaded values line) w fun _ w' => w.Contained lo w' := by
  refine (loadAll_straight hs (Nat.le_refl w.used)).bind fun n w₁ h₁ => ?_
  refine (freeRegisters_straight w.used _).bind fun _ w₂ h₂ => ?_
  rw [ensures_usedRegisters_bind]
  refine (ret_contained line _ n lo).mono fun _ w₃ h₃ => ?_
  exact ((h₁.1.trans h₂.1).contained hlo).trans h₃

theorem lowerReturn_contained (hs : ∀ s ∈ values, s.Tidy) (line : Nat) :
    Ensures False (lowerReturn values line) w fun _ w' => w.Contained w.draft.pc w' := by
  refine (setLine_straight w.used line).bind fun _ w₁ h₁ => ?_
  have hline : w.Contained w.draft.pc w₁ := h₁.1.contained le_rfl
  have hloaded : Ensures False (lowerReturnLoaded values line) w₁ fun _ w' =>
      w.Contained w.draft.pc w' :=
    (lowerReturnLoaded_contained hs line hline.pc).mono fun _ _ h => hline.trans h
  split
  · exact (ret_contained line 0 0 _).mono fun _ _ h => hline.trans h
  · next x _ =>
      refine (slotOf?_ensures x).bind fun r w₂ h₂ => ?_
      obtain ⟨rfl, -⟩ := h₂
      cases r with
      | some r => exact (ret_contained line r 1 _).mono fun _ _ h => hline.trans h
      | none => exact hloaded
  · exact hloaded

/-! ## Assignments and declarations -/

/-- A target whose table and key have straight code. -/
def TargetSource.Tidy : TargetSource → Prop
  | .name _ => True
  | .index table key => table.Tidy ∧ key.Tidy

theorem TargetSource.Tidy.vetted : ∀ {t : TargetSource}, t.Tidy → t.Vetted
  | .name _, _ => trivial
  | .index _ _, h => ⟨h.1.vetted, h.2.vetted⟩

theorem globalAddress_contained (x : String) (line : Nat) (hlo : lo ≤ w.draft.pc) :
    Ensures False (globalAddress x line) w fun _ w' => w.Contained lo w' := by
  refine (globalsOperand_straight w.used).bind fun env w₁ h₁ => ?_
  refine (constantIndex_writes (.string x)).bind fun i w₂ h₂ => ?_
  have hfound : w.Contained lo w₂ := (h₁.1.trans (h₂.1.straight_nil _)).contained hlo
  rw [ensures_options_bind]
  split
  · refine takeRegister_writes.bind fun r w₃ h₃ => ?_
    refine (loadConstant_straight line (.string x)).bind fun _ w₄ h₄ => ?_
    have hload : w₂.Straight r w₄ := (h₃.1.straight_nil r).trans h₄
    exact hfound.trans (hload.contained (Nat.le_trans hlo hfound.pc))
  · exact hfound

theorem addressOf_contained {t : TargetSource} (ht : t.Tidy) (line : Nat) (hlo : lo ≤ w.draft.pc) :
    Ensures False (addressOf line t) w fun _ w' => w.Contained lo w' := by
  cases t with
  | index table key =>
    refine takeRegister_writes.bind fun t w₁ h₁ => ?_
    obtain ⟨hwrites₁, rfl, hused₁, -⟩ := h₁
    refine (ht.1.load 1 (by omega)).bind fun _ w₂ h₂ => ?_
    refine takeRegister_writes.bind fun k w₃ h₃ => ?_
    obtain ⟨hwrites₃, rfl, hused₃, -⟩ := h₃
    refine (ht.2.load 1 (by omega)).bind fun _ w₄ h₄ => ?_
    have htable : w.Straight w.used w₂ := (hwrites₁.straight_nil _).trans h₂.1
    have hkey : w₂.Straight w₂.used w₄ := (hwrites₃.straight_nil _).trans h₄.1
    have hle := htable.pc
    exact (htable.contained hlo).trans (hkey.contained (by omega))
  | name x =>
    refine (slotOf?_ensures x).bind fun r w₁ h₁ => ?_
    obtain ⟨rfl, -⟩ := h₁
    cases r with
    | some r => exact .refl _ lo
    | none =>
      refine (upvalueOf?_writes x).bind fun u w₂ h₂ => ?_
      have hfound : w₁.Straight 0 w₂ := h₂.1.straight_nil 0
      cases u with
      | some u => exact hfound.contained hlo
      | none =>
        have hlo₂ : lo ≤ w₂.draft.pc := Nat.le_trans hlo hfound.pc
        refine (globalAddress_contained x line hlo₂).mono fun _ w₃ h₃ => ?_
        exact (hfound.contained hlo).trans h₃

theorem addressesOf_contained (hs : ∀ t ∈ targets, t.Tidy) (line : Nat) (hlo : lo ≤ w.draft.pc) :
    Ensures False (addressesOf line targets) w fun _ w' => w.Contained lo w' := by
  induction targets generalizing w with
  | nil => exact .refl w lo
  | cons t rest ih =>
    refine (addressOf_contained (hs t List.mem_cons_self) line hlo).bind fun _ w₁ h₁ => ?_
    have hle := h₁.pc
    refine (ih (fun t ht => hs t (List.mem_cons_of_mem _ ht)) (by omega)).bind fun _ w₂ h₂ => ?_
    exact h₁.trans h₂

theorem Address.Stored.staysIn {v pc : Nat} {address : Address} {i : Instruction}
    (h : address.Stored v i) (hlo : lo ≤ pc) : i.StaysIn pc lo (pc + 1) := by
  have hways : i.ways = [(.next, [])] := by
    cases h <;> simp [Instruction.ways_eq]
  exact (Instruction.proceeds_next hways (Nat.lt_succ_self pc)).staysIn hlo

theorem storeAll_contained (line : Nat) (addresses : List Address) :
    ∀ {w : Workspace} (v : Nat), lo ≤ w.draft.pc →
      Ensures False (storeAll line addresses v) w fun _ w' => w.Contained lo w' := by
  induction addresses with
  | nil => exact fun _ _ => .refl _ lo
  | cons address rest ih =>
    intro w v hlo
    refine (store_writes line v address).bind fun _ w₁ h₁ => ?_
    obtain ⟨i, hwrites, hstored⟩ := h₁
    have hstore : w.Contained lo w₁ := hwrites.contained (hstored.staysIn hlo)
    have hle := hstore.pc
    exact (ih (v + 1) (by omega)).mono fun _ w₂ h₂ => hstore.trans h₂

theorem lowerAssign_contained (ht : ∀ t ∈ targets, t.Tidy) (hv : ∀ s ∈ values, s.Tidy)
    (line : Nat) :
    Ensures False (lowerAssign targets values line) w fun _ w' => w.Contained w.draft.pc w' := by
  refine (setLine_straight w.used line).bind fun _ w₁ h₁ => ?_
  rw [ensures_usedRegisters_bind]
  have hle₁ := h₁.1.pc
  refine (addressesOf_contained ht line hle₁).bind fun addresses w₂ h₂ => ?_
  have hle₂ := h₂.pc
  rw [ensures_usedRegisters_bind]
  refine (loadAdjusted_straight hv _ line le_rfl).bind fun _ w₃ h₃ => ?_
  have hle₃ := h₃.pc
  have hlo₃ : w.draft.pc ≤ w₃.draft.pc := by omega
  refine (storeAll_contained line addresses _ hlo₃).bind fun _ w₄ h₄ => ?_
  refine (freeRegistersTo_straight w.used _).mono fun _ w₅ h₅ => ?_
  have hle₄ := h₄.pc
  have hvalues : w.Contained w.draft.pc w₃ :=
    (h₁.1.contained le_rfl).trans (h₂.trans (h₃.contained (by omega)))
  exact hvalues.trans (h₄.trans (h₅.1.contained (by omega)))

theorem lowerDeclare_carries (hv : ∀ s ∈ values, s.Tidy) (names : List String) (line : Nat) :
    CarriesFrom (lowerDeclare names values line) fun _ => [] := by
  intro w
  refine (lowerDeclare_introduces hv names line).mono fun _ w' h => ?_
  obtain ⟨u, hstraight, hscopes, -, -, hnew⟩ := h
  have hloaded : w.Carries w.draft.pc [] u :=
    .of_contained (hstraight.contained le_rfl) hscopes
  exact hloaded.trans (hnew.carries _)

theorem declareFunction_carries (x : String) (f : FunctionBody) :
    CarriesFrom (Stat.declareFunction x f).lower fun _ => [] := by
  intro w
  rw [Stat.lower]
  refine ((setLine_straight w.used f.line).and ((setLine_neutral f.line).vets w).ensures).bind
    fun _ w₁ h₁ => ?_
  rw [ensures_here_bind]
  refine (declareLocal_introduces x _).bind fun r w₂ h₂ => ?_
  refine ((FunctionBody.lower_straight f).and ((f.lower_neutral r).vets w₂).ensures).mono
    fun _ w₃ h₃ => ?_
  have hline : w.Carries w.draft.pc [] w₁ :=
    .of_contained (h₁.1.1.contained le_rfl) h₁.2.1.draft.scopes
  have hdeclared : w.Carries w.draft.pc [] w₂ := hline.trans (h₂.2.carries _)
  have hle := hdeclared.pc
  exact hdeclared.trans_contained (h₃.1.contained hle) h₃.2.1.draft.scopes

/-! ## The recursion -/

theorem Target.sources_tidy (targets : List Target) : ∀ t ∈ Target.sources targets, t.Tidy := by
  induction targets with
  | nil => simp [Target.sources]
  | cons target rest ih =>
    cases target with
    | name x =>
      simp only [Target.sources, List.forall_mem_cons]
      exact ⟨trivial, ih⟩
    | index table key =>
      simp only [Target.sources, List.forall_mem_cons]
      exact ⟨⟨Expr.lower_tidy table, Expr.lower_tidy key⟩, ih⟩

/-- The step of a numeric loop, which is one if none is written. -/
def Expr.stepSource : Option Expr → Source
  | some e => e.source
  | none => .constant (.integer 1) (.integer 1)

theorem Expr.stepSource_tidy : ∀ step : Option Expr, (Expr.stepSource step).Tidy
  | some e => Expr.lower_tidy e
  | none => .constant rfl

theorem Stat.lower_numericFor (var : String) (init limit : Expr) (step : Option Expr)
    (body : Block) (forLine doLine : Nat) :
    (Stat.numericFor var init limit step body forLine doLine).lower =
      lowerNumericFor var init.source limit.source (Expr.stepSource step) body.lower forLine doLine
        body.lastLine := by
  cases step <;> simp only [Stat.lower, Expr.stepSource, Expr.source]

mutual

theorem Stat.lower_carries : ∀ s : Stat, CarriesFrom s.lower s.breaks
  | .empty => by
      simp only [Stat.lower, Stat.breaks]
      exact fun w => .refl w _
  | .break line => by
      simp only [Stat.lower, Stat.breaks]
      exact lowerBreak_carries line
  | .label _ line => by
      intro w
      rw [Stat.lower]
      exact ensures_reject
  | .goto _ line => by
      intro w
      rw [Stat.lower]
      exact ensures_reject
  | .block body => by
      simp only [Stat.lower, Stat.breaks]
      exact lowerScoped_carries (Block.lower_carries body) body.lastLine
  | .call c => by
      simp only [Stat.lower, Stat.breaks]
      exact carriesFrom_of_neutral (lowerCallStat_neutral c.prepare_neutral c.line) fun w =>
        lowerCallStat_contained c.prepare_straight c.line
  | .whileLoop cond body line => by
      simp only [Stat.lower, Stat.breaks]
      exact fun w => (lowerWhile_laid (Expr.lower_tidy cond) (Block.lower_carries body) line _).mono
        fun _ _ h => h.1
  | .repeatLoop body cond line => by
      simp only [Stat.lower, Stat.breaks]
      exact fun w => (lowerRepeat_laid (Expr.lower_tidy cond) (Block.lower_carries body) line).mono
        fun _ _ h => h.1
  | .ifChain arms => by
      simp only [Stat.lower, Stat.breaks]
      exact fun w => (lowerIf_laid (Branch.arms_fit arms)).mono fun _ _ h => h.1
  | .numericFor var init limit step body forLine doLine => by
      simp only [Stat.lower_numericFor, Stat.breaks]
      exact fun w => (lowerNumericFor_laid (Expr.lower_tidy init) (Expr.lower_tidy limit)
        (Expr.stepSource_tidy step) (Block.lower_carries body) var forLine doLine _).mono
          fun _ _ h => h.1
  | .genericFor names values body doLine => by
      simp only [Stat.lower, Stat.breaks]
      exact fun w => (lowerGenericFor_laid (Expr.sources_tidy values) (Block.lower_carries body)
        names doLine _).mono fun _ _ h => h.1
  | .assign targets values line => by
      simp only [Stat.lower, Stat.breaks]
      exact carriesFrom_of_neutral (lowerAssign_neutral
        (fun t ht => (Target.sources_tidy targets t ht).vetted) (Expr.sources_vetted values) line)
        fun w => lowerAssign_contained (Target.sources_tidy targets) (Expr.sources_tidy values) line
  | .declare names values line => by
      simp only [Stat.lower, Stat.breaks]
      exact lowerDeclare_carries (Expr.sources_tidy values) names line
  | .declareFunction x f => by
      simp only [Stat.breaks]
      exact declareFunction_carries x f

theorem Block.lower_carries : ∀ b : Block, CarriesFrom b.lower b.breaks
  | ⟨stats, result, lastLine⟩ => by
      intro w
      rw [Block.lower.eq_def, Block.breaks]
      refine (Stat.lowerAll_carries stats w).bind fun _ w₁ h₁ => ?_
      have hresult : ∀ {m : LowerM Unit}, CarriesFrom m (fun _ => []) →
          Ensures False m w₁ fun _ w' => w.Carries w.draft.pc (Stat.breaksAll stats w) w' := by
        intro m hm
        refine (hm w₁).mono fun _ w₂ h₂ => ?_
        simpa using h₁.trans (h₂.mono h₁.pc)
      split
      · exact h₁
      · next c =>
          exact hresult (carriesFrom_of_neutral (lowerReturnCall_neutral c.prepare_neutral c.line _)
            fun w => lowerReturnCall_contained c.prepare_straight c.line lastLine)
      · next values _ =>
          exact hresult (carriesFrom_of_neutral (lowerReturn_neutral (Expr.sources_vetted values) _)
            fun w => lowerReturn_contained (Expr.sources_tidy values) lastLine)

theorem Stat.lowerAll_carries : ∀ stats : List Stat,
    CarriesFrom (Stat.lowerAll stats) (Stat.breaksAll stats)
  | [] => by
      intro w
      rw [Stat.lowerAll, Stat.breaksAll]
      exact .refl w _
  | s :: rest => by
      intro w
      rw [Stat.lowerAll, Stat.breaksAll]
      refine ((Stat.lower_carries s w).and (ensures_run _ w)).bind fun _ w₁ h₁ => ?_
      rw [stateAfter_of_ok h₁.2]
      exact (Stat.lowerAll_carries rest w₁).mono fun _ w₂ h₂ => h₁.1.trans (h₂.mono h₁.1.pc)

theorem Branch.arms_fit : ∀ arms : List Branch, ArmsFit (Branch.arms arms) (Branch.breaks arms)
  | [] => by
      have hbreaks : Branch.breaks [] = fun _ => [] := by
        funext w
        rw [Branch.breaks]
      rw [Branch.arms, hbreaks]
      exact .nil
  | ⟨cond, body, line⟩ :: rest => by
      have harm : Arm.Fits ⟨⟨cond, cond.lower⟩, body.lower, line, body.lastLine⟩ body.breaks :=
        ⟨Expr.lower_tidy cond, Block.lower_carries body⟩
      have hbreaks : Branch.breaks (⟨cond, body, line⟩ :: rest) = fun w =>
          Arm.breaks ⟨⟨cond, cond.lower⟩, body.lower, line, body.lastLine⟩ body.breaks w ++
          Branch.breaks rest (stateAfter
            (passArm ⟨⟨cond, cond.lower⟩, body.lower, line, body.lastLine⟩) w) := by
        funext w
        rw [Branch.breaks, Arm.breaks]
      rw [Branch.arms, hbreaks]
      exact .cons harm (Branch.arms_fit rest)

end

end LuaLowering
