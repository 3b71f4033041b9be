import LuaLowering.Proofs.Vetting.Scope
import LuaLowering.Proofs.Vetting.Values

/-!
# Vetting statements and functions

A statement is vetted where it stands: whether a `break` offends depends on the
scopes that are open. What a statement declares stays in the scope around it. All
else it declares, in scopes of its own or in functions, is gone when it ends.
-/

namespace LuaLowering

open LowerM

variable {w w' w₁ w₂ : Workspace} {m write : LowerM Unit} {os : Bool → List Offence}
  {xs : List String} {values : List Source} {targets : List TargetSource} {cond : Source}
  {breakable : Bool} {arms : List Arm}

/-- Lowering declares locals of these names and vets a stretch of the source that
has these offences, according to whether it is in a loop. -/
structure Extends (m : LowerM Unit) (os : Bool → List Offence) (names : List String) : Prop where
  vets : ∀ w, Vets m w (os (Scope.inLoop w.draft.scopes)) fun _ w' => w.Declares names w'

theorem Neutral.extends {os : List Offence} (h : Neutral m os) : Extends m (fun _ => os) [] :=
  ⟨fun w => (h.vets w).mono fun _ _ h' => h'.1.declares h'.2⟩

theorem Extends.bind {m' : LowerM Unit} {os' : Bool → List Offence} {ys : List String}
    (h : Extends m os xs) (h' : Extends m' os' ys) :
    Extends (m >>= fun _ => m') (fun loop => os loop ++ os' loop) (xs ++ ys) := by
  refine ⟨fun w => (h.vets w).bind fun _ w₁ h₁ => ?_⟩
  rw [← h₁.inLoop]
  exact (h'.vets w₁).mono fun _ w₂ h₂ => h₁.trans h₂

/-! ## Assignments -/

theorem lowerDeclare_vets (hs : ∀ s ∈ values, s.Vetted) (names : List String) (line : Nat)
    (w : Workspace) :
    Vets (lowerDeclare names values line) w (Source.offencesIn values) fun _ w' =>
      w.Declares names w' := by
  unfold lowerDeclare
  refine ((setLine_neutral line).vets w).andThen fun _ w₁ h₁ => ?_
  rw [vets_usedRegisters_bind]
  refine ((loadAdjusted_quiet hs names.length line).vets w₁).finally fun _ w₂ h₂ => ?_
  refine (freeRegistersTo_vets _ w₂).andThen fun _ w₃ h₃ => ?_
  rw [vets_here_bind]
  refine (declareLocals_vets _ names w₃).mono fun _ w₄ h₄ => ?_
  exact (h₁.1.trans (h₂.trans h₃.1)).andDeclares (h₃.2.trans h₁.2) h₄

/-- The sources of a target are vetted. -/
def TargetSource.Vetted : TargetSource → Prop
  | .name _ => True
  | .index table key => table.Vetted ∧ key.Vetted

def TargetSource.offences : TargetSource → List Offence
  | .name _ => []
  | .index table key => table.exp.offences ++ key.exp.offences

theorem globalAddress_quiet (x : String) (line : Nat) : Quiet (globalAddress x line) [] := by
  unfold globalAddress
  refine globalsOperand_neutral.quiet.andThen fun env => ?_
  refine (constantIndex_neutral _).quiet.andThen fun i => ⟨fun w => ?_⟩
  rw [vets_options_bind]
  split
  · exact (takeRegister_quiet.andThen fun r => (Emit.loadConstant_neutral ..).quiet.andThen fun _ =>
      (neutral_pure _).quiet).vets w
  · exact (neutral_pure _).quiet.vets w

theorem addressOf_quiet (line : Nat) {t : TargetSource} (ht : t.Vetted) :
    Quiet (addressOf line t) t.offences := by
  cases t with
  | index table key =>
    refine takeRegister_quiet.andThen fun r => ?_
    refine (ht.1 r 1).quiet.bind fun _ => takeRegister_quiet.andThen fun r' => ?_
    exact (ht.2 r' 1).quiet.finally fun _ => (neutral_pure _).quiet
  | name x =>
    refine (slotOf?_neutral x).quiet.andThen fun r => ?_
    cases r with
    | some r => exact (neutral_pure _).quiet
    | none =>
      refine (upvalueOf?_neutral x).quiet.andThen fun u => ?_
      cases u with
      | some u => exact (neutral_pure _).quiet
      | none => exact globalAddress_quiet x line

theorem addressesOf_quiet (line : Nat) (hs : ∀ t ∈ targets, t.Vetted) :
    Quiet (addressesOf line targets) (targets.flatMap (·.offences)) := by
  induction targets with
  | nil => exact (neutral_pure []).quiet
  | cons t rest ih =>
    have hrest := ih fun u hu => hs u (List.mem_cons_of_mem _ hu)
    refine (addressOf_quiet line (hs t List.mem_cons_self)).bind fun address => ?_
    exact hrest.finally fun addresses => (neutral_pure _).quiet

theorem store_neutral (line value : Nat) (address : Address) :
    Neutral (store line value address) [] := by
  cases address with
  | register r => exact Emit.plain_neutral ..
  | upvalue u => exact Emit.plain_neutral ..
  | field table key => exact Emit.plain_neutral ..
  | global env x key =>
    have hkey : Neutral (globalKey x key) [] := by
      cases key with
      | some r => exact neutral_pure r
      | none => exact (constantIndex_neutral _).andThen fun _ => neutral_pure _
    refine hkey.andThen fun k => ?_
    cases env <;> exact Emit.plain_neutral ..

theorem storeAll_neutral (line : Nat) (addresses : List Address) :
    ∀ value, Neutral (storeAll line addresses value) [] := by
  induction addresses with
  | nil => exact fun _ => neutral_pure ()
  | cons address rest ih =>
    exact fun value => (store_neutral line value address).andThen fun _ => ih (value + 1)

theorem lowerAssign_neutral (ht : ∀ t ∈ targets, t.Vetted) (hs : ∀ s ∈ values, s.Vetted)
    (line : Nat) :
    Neutral (lowerAssign targets values line)
      (targets.flatMap (·.offences) ++ Source.offencesIn values) := by
  constructor
  intro w
  unfold lowerAssign
  refine ((setLine_neutral line).vets w).andThen fun _ w₁ h₁ => ?_
  rw [vets_usedRegisters_bind]
  refine ((addressesOf_quiet line ht).vets w₁).bind fun addresses w₂ h₂ => ?_
  rw [vets_usedRegisters_bind]
  refine ((loadAdjusted_quiet hs _ line).vets w₂).finally fun _ w₃ h₃ => ?_
  refine ((storeAll_neutral line addresses _).vets w₃).andThen fun _ w₄ h₄ => ?_
  refine (freeRegistersTo_vets _ w₄).mono fun _ w₅ h₅ => ?_
  exact ⟨h₁.1.trans (h₂.trans (h₃.trans (h₄.1.trans h₅.1))), h₅.2.trans h₁.2⟩

/-! ## Calls and returns -/

section

variable {prepare : Nat → LowerM Int} {os : List Offence} (hp : ∀ a, Neutral (prepare a) os)

include hp

theorem finishCall_neutral (line a : Nat) (want : Int) :
    Neutral (finishCall prepare line a want) os :=
  (hp a).finally fun _ => Emit.call_neutral ..

theorem finishTailCall_neutral (line a : Nat) : Neutral (finishTailCall prepare line a) os :=
  (hp a).finally fun _ => Emit.tailCall_neutral ..

theorem lowerCallStat_neutral (line : Nat) : Neutral (lowerCallStat prepare line) os := by
  constructor
  intro w
  unfold lowerCallStat
  refine ((setLine_neutral line).vets w).andThen fun _ w₁ h₁ => ?_
  refine (takeRegister_vets w₁).andThen fun r w₂ h₂ => ?_
  refine ((finishCall_neutral hp line r 0).vets w₂).finally fun _ w₃ h₃ => ?_
  refine (freeRegister_vets w₃).mono fun _ w₄ h₄ => ?_
  refine ⟨h₁.1.trans (h₂.1.trans (h₃.1.trans h₄.1)), ?_⟩
  have hcount := h₄.2
  rw [h₃.2, h₂.2.2, h₁.2] at hcount
  omega

theorem lowerReturnCall_neutral (callLine line : Nat) :
    Neutral (lowerReturnCall prepare callLine line) os := by
  constructor
  intro w
  unfold lowerReturnCall
  refine ((setLine_neutral line).vets w).andThen fun _ w₁ h₁ => ?_
  refine (takeRegister_vets w₁).andThen fun r w₂ h₂ => ?_
  refine ((finishTailCall_neutral hp callLine r).vets w₂).finally fun _ w₃ h₃ => ?_
  refine (freeRegister_vets w₃).andThen fun _ w₄ h₄ => ?_
  refine ((Emit.ret_neutral ..).vets w₄).mono fun _ w₅ h₅ => ?_
  refine ⟨h₁.1.trans (h₂.1.trans (h₃.1.trans (h₄.1.trans h₅.1))), ?_⟩
  have hcount := h₄.2
  rw [h₃.2, h₂.2.2, h₁.2] at hcount
  rw [h₅.2]
  omega

end

theorem lowerReturnLoaded_neutral (hs : ∀ s ∈ values, s.Vetted) (line : Nat) :
    Neutral (lowerReturnLoaded values line) (Source.offencesIn values) := by
  constructor
  intro w
  unfold lowerReturnLoaded
  refine (loadAll_vets hs w).finally fun n w₁ h₁ => ?_
  refine (freeRegisters_vets _ w₁).andThen fun _ w₂ h₂ => ?_
  rw [vets_usedRegisters_bind]
  refine ((Emit.ret_neutral ..).vets w₂).mono fun _ w₃ h₃ => ?_
  refine ⟨h₁.1.trans (h₂.1.trans h₃.1), ?_⟩
  have hcount := h₂.2
  rw [h₁.2] at hcount
  rw [h₃.2]
  omega

theorem lowerReturn_neutral (hs : ∀ s ∈ values, s.Vetted) (line : Nat) :
    Neutral (lowerReturn values line) (Source.offencesIn values) := by
  unfold lowerReturn
  refine (setLine_neutral line).andThen fun _ => ?_
  split
  · exact Emit.ret_neutral ..
  · next x load =>
    refine (slotOf?_neutral x).andThen fun r => ?_
    cases r with
    | some r => exact Emit.ret_neutral ..
    | none => exact lowerReturnLoaded_neutral hs line
  · exact lowerReturnLoaded_neutral hs line

/-! ## Scopes -/

theorem branchUnless_neutral (hc : cond.Vetted) (line : Nat) :
    Neutral (branchUnless cond line) cond.exp.offences := by
  constructor
  intro w
  unfold branchUnless
  refine ((setLine_neutral line).vets w).andThen fun _ w₁ h₁ => ?_
  rw [vets_usedRegisters_bind]
  refine ((operand_quiet hc _).vets w₁).finally fun r w₂ h₂ => ?_
  refine (freeRegistersTo_vets _ w₂).andThen fun _ w₃ h₃ => ?_
  refine ((Emit.plain_neutral ..).vets w₃).andThen fun _ w₄ h₄ => ?_
  refine ((Emit.asbx_neutral ..).vets w₄).mono fun _ w₅ h₅ => ?_
  refine ⟨h₁.1.trans (h₂.trans (h₃.1.trans (h₄.1.trans h₅.1))), ?_⟩
  rw [h₅.2, h₄.2, h₃.2, h₁.2]

section

variable {body : LowerM Unit} {os : Bool → List Offence} {names : List String}
  (hb : Extends body os names)

/-- A body in a scope that was just opened. -/
theorem Extends.vets_opened (hb : Extends body os names) (ho : w.Opens breakable w₁) :
    Vets body w₁ (os (breakable || Scope.inLoop w.draft.scopes)) fun _ w' =>
      w₁.Declares names w' := by
  rw [← ho.inLoop]
  exact hb.vets w₁

/-- Leaving a scope after what was declared in it. -/
theorem leaveScope_vets (ho : w.Opens breakable w₁) (hd : w₁.Declares xs w₂) (endPc : Nat) :
    Vets (closeScope endPc) w₂ [] fun _ w' => w.Declares [] w' := by
  obtain ⟨new, hadds, -⟩ := hd
  exact (closeScope_vets ho hadds endPc).mono fun _ w' h => ⟨[], h, rfl⟩

include hb

theorem lowerScoped_extends (lastLine : Nat) : Extends (lowerScoped body lastLine) os [] := by
  constructor
  intro w
  unfold lowerScoped
  refine (openScope_vets false w).andThen fun _ w₁ h₁ => ?_
  refine (hb.vets_opened h₁).finally fun _ w₂ h₂ => ?_
  refine ((closeCaptured_neutral lastLine).vets w₂).andThen fun _ w₃ h₃ => ?_
  rw [vets_here_bind]
  exact leaveScope_vets h₁ (h₂.alike h₃.1 h₃.2) _

theorem lowerWhile_extends (hc : cond.Vetted) (line lastLine : Nat) :
    Extends (lowerWhile cond body line lastLine) (fun _ => cond.exp.offences ++ os true) [] := by
  constructor
  intro w
  unfold lowerWhile
  rw [vets_here_bind]
  refine ((branchUnless_neutral hc line).vets w).bind fun leave w₁ h₁ => ?_
  refine (openScope_vets true w₁).andThen fun _ w₂ h₂ => ?_
  refine (hb.vets_opened h₂).finally fun _ w₃ h₃ => ?_
  refine ((closeCaptured_neutral lastLine).vets w₃).andThen fun _ w₄ h₄ => ?_
  refine ((offsetFromHere_neutral _).vets w₄).andThen fun back w₅ h₅ => ?_
  refine ((Emit.asbx_neutral ..).vets w₅).andThen fun _ w₆ h₆ => ?_
  rw [vets_here_bind]
  have hbody := ((h₃.alike h₄.1 h₄.2).alike h₅.1 h₅.2).alike h₆.1 h₆.2
  refine (leaveScope_vets h₂ hbody _).andThen fun _ w₇ h₇ => ?_
  rw [vets_here_bind]
  refine ((aimJump_neutral leave _).vets w₇).mono fun _ w₈ h₈ => ?_
  exact h₁.1.andDeclares h₁.2 (h₇.alike h₈.1 h₈.2)

theorem lowerRepeat_extends (hc : cond.Vetted) (line : Nat) :
    Extends (lowerRepeat body cond line) (fun _ => os true ++ cond.exp.offences) [] := by
  constructor
  intro w
  unfold lowerRepeat
  refine (openScope_vets true w).andThen fun _ w₁ h₁ => ?_
  rw [vets_here_bind]
  refine (hb.vets_opened h₁).bind fun _ w₂ h₂ => ?_
  refine ((setLine_neutral line).vets w₂).andThen fun _ w₃ h₃ => ?_
  rw [vets_usedRegisters_bind]
  refine ((operand_quiet hc _).vets w₃).finally fun r w₄ h₄ => ?_
  refine (freeRegistersTo_vets _ w₄).andThen fun _ w₅ h₅ => ?_
  refine ((Emit.plain_neutral ..).vets w₅).andThen fun _ w₆ h₆ => ?_
  refine (closeLevel_neutral.vets w₆).andThen fun level w₇ h₇ => ?_
  refine ((offsetFromHere_neutral _).vets w₇).andThen fun back w₈ h₈ => ?_
  refine ((Emit.asbx_neutral ..).vets w₈).andThen fun _ w₉ h₉ => ?_
  refine ((closeCaptured_neutral line).vets w₉).andThen fun _ w₁₀ h₁₀ => ?_
  rw [vets_here_bind]
  have hcond : w₂.Declares [] w₅ :=
    (h₃.1.trans (h₄.trans h₅.1)).declares (h₅.2.trans h₃.2)
  have htest : w₅.Alike w₁₀ :=
    h₆.1.trans (h₇.1.trans (h₈.1.trans (h₉.1.trans h₁₀.1)))
  refine leaveScope_vets h₁ ((h₂.trans hcond).alike htest ?_) _
  rw [h₁₀.2, h₉.2, h₈.2, h₇.2, h₆.2]

end

theorem lowerBreak_extends (line : Nat) :
    Extends (lowerBreak line) (fun loop => if loop then [] else [.strayBreak line]) [] := by
  constructor
  intro w
  unfold lowerBreak
  refine ((Emit.asbx_neutral ..).vets w).andThen fun pc w₁ h₁ => ?_
  unfold addBreak
  rw [vets_view_bind, Scope.addBreak?_eq, h₁.1.draft.scopes]
  by_cases hloop : Scope.inLoop w.draft.scopes = true
  · rw [if_pos hloop, if_pos hloop]
    dsimp only
    refine ⟨rfl, id, [], ⟨h₁.2, ?_, fun _ => ?_, ?_, fun i v hv => ?_, h₁.1.enclosing⟩, rfl⟩
    · exact (Scope.frames_addBreaks _ _).trans (by rw [List.map_nil, Scope.addLocals_nil])
    · refine ⟨_, fun b hb => ?_, by rw [List.map_nil, Scope.addLocals_nil]⟩
      obtain rfl := List.mem_singleton.mp hb
      exact Nat.sub_lt (Scope.length_pos_of_inLoop hloop) Nat.one_pos
    · exact Draft.reading_congr h₁.1.draft.visible
    · exact (h₁.1.draft.declared i).trans hv
  · rw [if_neg hloop, if_neg hloop]
    exact Or.inr (Or.inl rfl)

/-! ## Branches -/

/-- The arms of an `if` are vetted, with these offences. -/
inductive ArmsVetted : List Arm → (Bool → List Offence) → Prop
  | nil : ArmsVetted [] fun _ => []
  | cons {arm : Arm} {rest : List Arm} {os os' : Bool → List Offence} {names : List String}
      (hc : arm.cond.Vetted) (hb : Extends arm.body os names) (hrest : ArmsVetted rest os') :
      ArmsVetted (arm :: rest) fun loop => arm.cond.exp.offences ++ (os loop ++ os' loop)

theorem lowerArm_vets {arm : Arm} {names : List String} (hc : arm.cond.Vetted)
    (hb : Extends arm.body os names) (w : Workspace) :
    Vets (lowerArm arm) w (arm.cond.exp.offences ++ os (Scope.inLoop w.draft.scopes)) fun _ w' =>
      w.Declares [] w' := by
  unfold lowerArm
  refine ((branchUnless_neutral hc arm.line).vets w).bind fun skip w₁ h₁ => ?_
  rw [← h₁.1.draft.scopes]
  refine ((lowerScoped_extends hb arm.lastLine).vets w₁).finally fun _ w₂ h₂ => ?_
  exact vets_pure.mpr ⟨rfl, h₁.1.andDeclares h₁.2 h₂⟩

theorem lowerArms_vets (h : ArmsVetted arms os) :
    ∀ w, Vets (lowerArms arms) w (os (Scope.inLoop w.draft.scopes)) fun _ w' =>
      w.Declares [] w' := by
  induction h with
  | nil => exact fun w => vets_pure.mpr ⟨rfl, (Workspace.Alike.refl w).declares rfl⟩
  | @cons arm rest os os' names hc hb hrest ih =>
    intro w
    cases rest with
    | nil =>
      cases hrest
      dsimp only
      rw [List.append_nil]
      exact (lowerArm_vets hc hb w).finally fun _ w₁ h₁ => vets_pure.mpr ⟨rfl, h₁⟩
    | cons next others =>
      rw [lowerArms]
      · dsimp only
        rw [← List.append_assoc]
        refine (lowerArm_vets hc hb w).bind fun skip w₁ h₁ => ?_
        refine ((Emit.asbx_neutral ..).vets w₁).andThen fun leave w₂ h₂ => ?_
        rw [vets_here_bind]
        refine ((aimJump_neutral skip _).vets w₂).andThen fun _ w₃ h₃ => ?_
        have hto : w.Declares [] w₃ := (h₁.alike h₂.1 h₂.2).alike h₃.1 h₃.2
        rw [← hto.inLoop]
        refine (ih w₃).finally fun leaves w₄ h₄ => vets_pure.mpr ⟨rfl, hto.trans h₄⟩
      · exact fun h => by cases h

theorem aimJumps_neutral (target : Nat) (exits : List Nat) :
    Neutral (aimJumps target exits) [] := by
  induction exits with
  | nil => exact neutral_pure ()
  | cons pc rest ih => exact (aimJump_neutral pc target).andThen fun _ => ih

theorem lowerIf_extends (h : ArmsVetted arms os) : Extends (lowerIf arms) os [] := by
  constructor
  intro w
  unfold lowerIf
  refine (lowerArms_vets h w).finally fun exits w₁ h₁ => ?_
  rw [vets_here_bind]
  exact ((aimJumps_neutral _ exits).vets w₁).mono fun _ w₂ h₂ => h₁.alike h₂.1 h₂.2

/-! ## Loops over values -/

theorem Workspace.Opens.after (ha : w.Alike w₁) (hused : w₁.used = w.used)
    (ho : w₁.Opens breakable w₂) : w.Opens breakable w₂ where
  scopes := ho.scopes.trans (by rw [ha.draft.scopes])
  visible := ho.visible.trans ha.draft.visible
  declared := fun i => (ho.declared i).trans (ha.draft.declared i)
  used := ho.used.trans hused
  enclosing := Draft.forall₂_waits_trans ha.enclosing ho.enclosing

theorem enterFor_vets (hs : ∀ s ∈ values, s.Vetted) (state names : List String) (line : Nat)
    (w : Workspace) :
    Vets (enterFor state values names line) w (Source.offencesIn values) fun _ w' =>
      ∃ w₁, w.Opens true w₁ ∧ w₁.Declares (state ++ names) w' := by
  unfold enterFor
  refine ((setLine_neutral line).vets w).andThen fun _ w₁ h₁ => ?_
  refine (openScope_vets true w₁).andThen fun _ w₂ h₂ => ?_
  rw [vets_declaredCount_bind]
  refine (lowerDeclare_vets hs state line w₂).finally fun _ w₃ h₃ => ?_
  rw [vets_here_bind]
  refine (declareLocals_vets _ names w₃).andThen fun _ w₄ h₄ => vets_pure.mpr ⟨rfl, w₂, ?_, ?_⟩
  · exact h₂.after h₁.1 h₁.2
  · exact h₃.trans h₄

theorem leaveFor_vets (ho : w.Opens true w₁) (hd : w₁.Declares xs w₂) (hidden n : Nat) :
    Vets (leaveFor hidden n) w₂ [] fun _ w' => w.Declares [] w' := by
  unfold leaveFor
  rw [vets_here_bind]
  refine ((before_neutral _ n).vets w₂).andThen fun endPc w₃ h₃ => ?_
  refine (leaveScope_vets ho (hd.alike h₃.1 h₃.2) endPc).andThen fun _ w₄ h₄ => ?_
  exact ((prolongLocals_neutral ..).vets w₄).mono fun _ w₅ h₅ => h₄.alike h₅.1 h₅.2

section

variable {body : LowerM Unit} {os : Bool → List Offence} {names : List String}
  (hb : Extends body os names)

/-- The body of a `for`, in the scope of its variables. -/
theorem Extends.vets_for (hb : Extends body os names) (ho : w.Opens true w₁)
    (hd : w₁.Declares xs w₂) : Vets body w₂ (os true) fun _ w' => w₁.Declares (xs ++ names) w' := by
  have hloop : Scope.inLoop w₂.draft.scopes = true := by rw [hd.inLoop, ho.inLoop]; rfl
  rw [← hloop]
  exact (hb.vets w₂).mono fun _ w' h => hd.trans h

include hb

theorem lowerNumericFor_extends {init limit step : Source} (hi : init.Vetted) (hl : limit.Vetted)
    (hs : step.Vetted) (var : String) (forLine doLine lastLine : Nat) :
    Extends (lowerNumericFor var init limit step body forLine doLine lastLine)
      (fun _ => Source.offencesIn [init, limit, step] ++ os true) [] := by
  have hsources : ∀ s ∈ [init, limit, step], s.Vetted := by
    intro s h
    simp only [List.mem_cons, List.not_mem_nil, or_false] at h
    rcases h with rfl | rfl | rfl
    · exact hi
    · exact hl
    · exact hs
  constructor
  intro w
  unfold lowerNumericFor
  refine (enterFor_vets hsources _ [var] forLine w).bind fun hidden w₁ h₁ => ?_
  obtain ⟨w₀, ho, hd⟩ := h₁
  rw [vets_usedRegisters_bind]
  refine ((before_neutral _ 4).vets w₁).andThen fun base w₂ h₂ => ?_
  refine ((Emit.asbx_neutral ..).vets w₂).andThen fun prep w₃ h₃ => ?_
  have hd₃ := (hd.alike h₂.1 h₂.2).alike h₃.1 h₃.2
  refine (hb.vets_for ho hd₃).finally fun _ w₄ h₄ => ?_
  refine ((closeCaptured_neutral lastLine).vets w₄).andThen fun _ w₅ h₅ => ?_
  refine ((Emit.asbx_neutral ..).vets w₅).andThen fun back w₆ h₆ => ?_
  refine ((aimJump_neutral ..).vets w₆).andThen fun _ w₇ h₇ => ?_
  refine ((aimJump_neutral ..).vets w₇).andThen fun _ w₈ h₈ => ?_
  have hd₈ := (((h₄.alike h₅.1 h₅.2).alike h₆.1 h₆.2).alike h₇.1 h₇.2).alike h₈.1 h₈.2
  exact leaveFor_vets ho hd₈ hidden 1

theorem lowerGenericFor_extends (hs : ∀ s ∈ values, s.Vetted) (vars : List String)
    (doLine lastLine : Nat) :
    Extends (lowerGenericFor vars values body doLine lastLine)
      (fun _ => Source.offencesIn values ++ os true) [] := by
  constructor
  intro w
  unfold lowerGenericFor
  refine (enterFor_vets hs _ vars doLine w).bind fun hidden w₁ h₁ => ?_
  obtain ⟨w₀, ho, hd⟩ := h₁
  refine ((Emit.asbx_neutral ..).vets w₁).andThen fun enter w₂ h₂ => ?_
  refine (hb.vets_for ho (hd.alike h₂.1 h₂.2)).finally fun _ w₃ h₃ => ?_
  refine ((closeCaptured_neutral lastLine).vets w₃).andThen fun _ w₄ h₄ => ?_
  rw [vets_here_bind]
  refine ((aimJump_neutral ..).vets w₄).andThen fun _ w₅ h₅ => ?_
  refine ((localAt_neutral hidden).vets w₅).andThen fun v w₆ h₆ => ?_
  refine ((Emit.plain_neutral ..).vets w₆).andThen fun _ w₇ h₇ => ?_
  refine ((offsetFromHere_neutral _).vets w₇).andThen fun back w₈ h₈ => ?_
  refine ((Emit.asbx_neutral ..).vets w₈).andThen fun _ w₉ h₉ => ?_
  have hd₆ := ((h₃.alike h₄.1 h₄.2).alike h₅.1 h₅.2).alike h₆.1 h₆.2
  have hd₉ := ((hd₆.alike h₇.1 h₇.2).alike h₈.1 h₈.2).alike h₉.1 h₉.2
  exact leaveFor_vets ho hd₉ hidden 2

/-! ## Functions -/

/-- A function is written inside the one around it, which waits. -/
theorem writeBody_vets (params : List String) (lastLine : Nat) (hscopes : w.draft.scopes = [{}]) :
    Vets (writeBody params body lastLine) w (os false) fun _ w' =>
      List.Forall₂ Draft.Waits w.enclosing w'.enclosing := by
  -- the scope of a function is like one opened where there was none
  have ho : ({ w with draft := { w.draft with scopes := [] } } : Workspace).Opens false w :=
    ⟨hscopes, rfl, fun _ => rfl, rfl, Draft.forall₂_waits_refl _⟩
  unfold writeBody
  refine (declareLocals_vets 0 params w).andThen fun _ w₁ h₁ => ?_
  have hloop : Scope.inLoop w₁.draft.scopes = false := by rw [h₁.inLoop, hscopes]; rfl
  rw [← hloop]
  refine (hb.vets w₁).finally fun _ w₂ h₂ => ?_
  rw [vets_here_bind]
  refine (leaveScope_vets ho (h₁.trans h₂) _).andThen fun _ w₃ h₃ => ?_
  obtain ⟨new, hadds, -⟩ := h₃
  refine ((Emit.ret_neutral ..).vets w₃).mono fun _ w₄ h₄ => ?_
  exact Draft.forall₂_waits_trans hadds.enclosing h₄.1.enclosing

theorem writeFunction_vets (params : List String) (isVararg : Bool) (line lastLine : Nat)
    (hscopes : w.draft.scopes = [{}]) :
    Vets (writeFunction params isVararg line lastLine body) w (os false) fun _ w' =>
      List.Forall₂ Draft.Waits w.enclosing w'.enclosing := by
  unfold writeFunction
  exact vets_update_bind rfl (writeBody_vets hb params lastLine hscopes)

end

/-- Writing a function inside the present one leaves the present one as it was. -/
theorem nested_neutral {os : List Offence} (h : ∀ w : Workspace, Vets write w.enter os fun _ w' =>
      List.Forall₂ Draft.Waits w.enter.enclosing w'.enclosing) : Neutral (nested write) os := by
  constructor
  intro w
  have hw := h w
  have hsees : w.SeesGlobals → w.enter.SeesGlobals := by
    intro hg
    rcases hg with hg | ⟨e, he, hg⟩
    · exact Or.inr ⟨w.draft, List.mem_cons_self, hg⟩
    · exact Or.inr ⟨e, List.mem_cons_of_mem _ he, hg⟩
  unfold Vets at hw ⊢
  unfold nested
  dsimp only
  cases hrun : write w.enter with
  | ok x inner =>
    rw [hrun] at hw
    obtain ⟨hnone, -, hwaits⟩ := hw
    have hcons : List.Forall₂ Draft.Waits (w.draft :: w.enclosing) inner.enclosing := hwaits
    obtain ⟨d, rest, hd, hrest, henc⟩ := List.forall₂_cons_left_iff.mp hcons
    have hleave : inner.leave = { inner with draft := d, enclosing := rest } := by
      rw [Workspace.leave, henc]
    have halike : w.Alike inner.leave := hleave ▸ ⟨hd.toAlike, hrest⟩
    exact ⟨hnone, halike.seesGlobals, halike, hleave ▸ hd.used⟩
  | error e inner =>
    rw [hrun] at hw
    cases e with
    | rejected why => exact hw.before hsees
    | misused how => trivial

theorem loadFunction_neutral {os : List Offence}
    (h : ∀ w : Workspace, Vets write w.enter os fun _ w' =>
      List.Forall₂ Draft.Waits w.enter.enclosing w'.enclosing) (lastLine a : Nat) :
    Neutral (loadFunction lastLine write a) os := by
  unfold loadFunction
  refine (nested_neutral h).finally fun p => ⟨fun w => ?_⟩
  rw [vets_view_bind, finishFunction, bind_assoc, vets_options_bind, bind_assoc]
  refine ((record_neutral _).vets w).andThen fun _ w₁ h₁ => ?_
  rw [vets_pure_bind]
  refine (Neutral.vets (neutral_update fun _ => ?_) w₁).andThen fun _ w₂ h₂ => ?_
  · exact ⟨⟨rfl, rfl, fun _ => rfl, .refl _⟩, rfl⟩
  · refine ((Emit.closure_neutral ..).vets w₂).mono fun _ w₃ h₃ => ?_
    exact ⟨h₁.1.trans (h₂.1.trans h₃.1), h₃.2.trans (h₂.2.trans h₁.2)⟩

end LuaLowering
