import LuaLowering.Proofs.Vetting.Contract

/-!
# Vetting the builder's steps

Almost every step of the builder is neutral: it writes code, adds a constant or
looks something up. The exceptions are the steps that take registers and give
them back, and those that open and close scopes, which have a module of their
own.
-/

namespace LuaLowering

open LowerM

variable {w : Workspace} {os : List Offence} {g : Draft → Draft} {d : Draft}
  {enclosing : List Draft}

/-- A change of the function being written that keeps its names and scopes. -/
theorem update_vets (w : Workspace) (h : w.draft.Alike (g w.draft)) :
    Vets (update g) w [] fun _ w' =>
      w.Alike w' ∧ w'.used = (g w.draft).registers.used := by
  have halike : w.Alike { w with draft := g w.draft } := ⟨h, Draft.forall₂_waits_refl _⟩
  exact ⟨rfl, halike.seesGlobals, halike, rfl⟩

theorem neutral_update (h : ∀ d : Draft, d.Waits (g d)) : Neutral (update g) [] :=
  ⟨fun w => (update_vets w (h w.draft).toAlike).mono fun _ _ h' =>
    ⟨h'.1, h'.2.trans (h w.draft).used⟩⟩

/-! ## Registers and lines -/

theorem setLine_neutral (line : Nat) : Neutral (setLine line) [] :=
  neutral_update fun _ => ⟨⟨rfl, rfl, fun _ => rfl, .refl _⟩, rfl⟩

theorem keepTaken_vets (n : Nat) :
    Vets (keepTaken (w.draft.registers.takeRun? n)) w [] fun r w' =>
      w.Alike w' ∧ r = w.used ∧ w'.used = w.used + n := by
  unfold Registers.takeRun?
  split
  · refine (update_vets w ?_).andThen fun _ w' h => vets_pure.mpr ⟨rfl, h.1, rfl, h.2⟩
    exact ⟨rfl, rfl, fun _ => rfl, .refl _⟩
  · exact Or.inl trivial

theorem takeRegister_vets (w : Workspace) :
    Vets takeRegister w [] fun r w' => w.Alike w' ∧ r = w.used ∧ w'.used = w.used + 1 :=
  keepTaken_vets 1

theorem takeRegister_quiet : Quiet takeRegister [] :=
  ⟨fun w => (takeRegister_vets w).mono fun _ _ h => h.1⟩

theorem takeRegisters_quiet (n : Nat) : Quiet (takeRegisters n) [] := by
  constructor
  intro w
  unfold takeRegisters
  rw [vets_view_bind, Registers.takeRun]
  by_cases hfits : Word.fits (w.draft.registers.used + n)
  · rw [if_pos hfits]
    exact (keepTaken_vets n).mono fun _ _ h => h.1
  · rw [if_neg hfits]
    exact vets_misuse

/-- Giving registers back changes their number only. -/
theorem giveBack_vets {f : Registers → Except Misuse Registers} (P : Nat → Prop)
    (hf : ∀ r, f w.draft.registers = .ok r → P r.used) :
    Vets (giveBack f) w [] fun _ w' => w.Alike w' ∧ P w'.used := by
  unfold giveBack
  rw [vets_view_bind]
  cases hr : f w.draft.registers with
  | ok r =>
    refine (update_vets w ?_).mono fun _ w' h => ⟨h.1, h.2 ▸ hf r hr⟩
    exact ⟨rfl, rfl, fun _ => rfl, .refl _⟩
  | error how => exact vets_misuse

theorem freeRegisters_vets (n : Nat) (w : Workspace) :
    Vets (freeRegisters n) w [] fun _ w' => w.Alike w' ∧ w'.used + n = w.used := by
  apply giveBack_vets (· + n = w.used)
  intro r hr
  simp only [Registers.free] at hr
  split at hr
  · cases hr
    show w.used - n + n = w.used
    exact Nat.sub_add_cancel ‹_›
  · cases hr

theorem freeRegister_vets (w : Workspace) :
    Vets freeRegister w [] fun _ w' => w.Alike w' ∧ w'.used + 1 = w.used := freeRegisters_vets 1 w

theorem freeRegistersTo_vets (mark : Nat) (w : Workspace) :
    Vets (freeRegistersTo mark) w [] fun _ w' => w.Alike w' ∧ w'.used = mark := by
  apply giveBack_vets (· = mark)
  intro r hr
  simp only [Registers.freeTo] at hr
  split at hr <;> cases hr
  rfl

theorem release_vets (register : Nat) (w : Workspace) :
    Vets (giveBack (·.release register)) w [] fun _ w' => w.Alike w' ∧ w'.used + 1 = w.used := by
  apply giveBack_vets (· + 1 = w.used)
  intro r hr
  simp only [Registers.release] at hr
  split at hr
  · next htop =>
    cases hr
    exact htop
  · cases hr

theorem before_neutral (value back : Nat) : Neutral (before value back) [] := by
  unfold before
  split
  · exact neutral_pure _
  · exact neutral_misuse _

/-! ## Code and constants -/

theorem emit_neutral (line : Nat) (i : Instruction) : Neutral (emit line i) [] := by
  constructor
  intro w
  unfold emit
  rw [vets_here_bind]
  refine (Neutral.andThen (neutral_update fun _ => ?_) fun _ => neutral_pure _).vets w
  exact ⟨⟨rfl, rfl, fun _ => rfl, .refl _⟩, rfl⟩

theorem setInstruction_neutral (pc : Nat) (i : Instruction) : Neutral (setInstruction pc i) [] := by
  constructor
  intro w
  unfold setInstruction
  rw [vets_here_bind]
  split
  · refine (neutral_update fun _ => ?_).vets w
    exact ⟨⟨rfl, rfl, fun _ => rfl, .refl _⟩, rfl⟩
  · exact vets_misuse

theorem record_neutral (e : Event) : Neutral (record e) [] :=
  ⟨fun _ => ⟨rfl, id, ⟨.refl _, Draft.forall₂_waits_refl _⟩, rfl⟩⟩

theorem offsetBetween_neutral (origin target : Nat) : Neutral (offsetBetween origin target) [] := by
  constructor
  intro w
  unfold offsetBetween
  rw [vets_view_bind]
  split
  · exact (neutral_pure _).vets w
  · rw [vets_here_bind]
    by_cases hfar : max origin target ≤ w.draft.pc ∨ Word.holdsOffset (w.draft.offset origin target)
    · rw [if_pos hfar, vets_currentLine_bind, vets_reject]
      exact Or.inl trivial
    · rw [if_neg hfar]
      exact vets_misuse

theorem offsetFromHere_neutral (target : Nat) : Neutral (offsetFromHere target) [] := by
  constructor
  intro w
  unfold offsetFromHere
  rw [vets_here_bind]
  exact (offsetBetween_neutral w.draft.pc target).vets w

theorem aimJump_neutral (pc target : Nat) : Neutral (aimJump pc target) [] := by
  unfold aimJump
  refine (offsetBetween_neutral pc target).andThen fun offset => ⟨fun w => ?_⟩
  rw [vets_view_bind]
  split
  · exact ((setInstruction_neutral pc _).andThen fun _ => record_neutral _).vets w
  · exact vets_misuse

theorem constantIndex_neutral (k : Constant) : Neutral (constantIndex k) [] := by
  constructor
  intro w
  unfold constantIndex
  rw [vets_view_bind]
  split
  · exact (neutral_pure _).vets w
  · rw [vets_view_bind]
    refine (Neutral.andThen (neutral_update fun _ => ?_) fun _ => neutral_pure _).vets w
    exact ⟨⟨rfl, rfl, fun _ => rfl, .refl _⟩, rfl⟩

theorem countField_neutral (n : Int) : Neutral (countField n) [] := by
  unfold countField
  split
  · exact neutral_pure _
  · exact neutral_misuse _

theorem sizeField_neutral (n : Nat) : Neutral (sizeField n) [] := by
  unfold sizeField
  split
  · exact neutral_pure _
  · exact neutral_misuse _

namespace Emit

theorem plain_neutral (line : Nat) (op : Opcode) (a b c : Nat) : Neutral (plain line op a b c) [] :=
  (emit_neutral line _).andThen fun _ => neutral_pure ()

theorem asbx_neutral (line : Nat) (op : Opcode) (a : Nat) (offset : Int) :
    Neutral (asbx line op a offset) [] := by
  unfold asbx
  split
  · exact emit_neutral line _
  · exact neutral_misuse _

theorem loadNil_neutral (line a n : Nat) : Neutral (loadNil line a n) [] :=
  (before_neutral n 1).andThen fun _ => plain_neutral ..

theorem loadConstant_neutral (line a : Nat) (k : Constant) :
    Neutral (loadConstant line a k) [] := by
  unfold loadConstant
  refine (constantIndex_neutral k).andThen fun i => ?_
  split
  · exact (emit_neutral line _).andThen fun _ => neutral_pure ()
  · exact (emit_neutral line _).andThen fun _ =>
      (emit_neutral line _).andThen fun _ => neutral_pure ()

theorem vararg_neutral (line a : Nat) (n : Int) : Neutral (vararg line a n) [] :=
  (countField_neutral n).andThen fun _ => plain_neutral ..

theorem closure_neutral (line a bx : Nat) : Neutral (closure line a bx) [] :=
  (emit_neutral line _).andThen fun _ => neutral_pure ()

theorem newTable_neutral (line a items entries : Nat) :
    Neutral (newTable line a items entries) [] :=
  (sizeField_neutral items).andThen fun _ =>
    (sizeField_neutral entries).andThen fun _ => plain_neutral ..

theorem call_neutral (line a : Nat) (args results : Int) : Neutral (call line a args results) [] :=
  (countField_neutral args).andThen fun _ =>
    (countField_neutral results).andThen fun _ => plain_neutral ..

theorem tailCall_neutral (line a : Nat) (args : Int) : Neutral (tailCall line a args) [] :=
  (countField_neutral args).andThen fun _ => plain_neutral ..

theorem ret_neutral (line a : Nat) (n : Int) : Neutral (ret line a n) [] :=
  (countField_neutral n).andThen fun _ => plain_neutral ..

theorem binary_neutral (line : Nat) (op : BinaryOp) (a b c : Nat) :
    Neutral (binary line op a b c) [] := by
  unfold binary
  split
  · exact plain_neutral ..
  · split
    · exact (plain_neutral ..).andThen fun _ => (asbx_neutral ..).andThen fun _ =>
        (plain_neutral ..).andThen fun _ => plain_neutral ..
    · exact neutral_pure ()

end Emit

theorem getField_neutral (line a : Nat) (table key : Operand) :
    Neutral (getField line a table key) [] := by
  unfold getField
  split <;> exact Emit.plain_neutral ..

/-! ## Locals -/

theorem localAt_neutral (i : Nat) : Neutral (localAt i) [] := by
  constructor
  intro w
  unfold localAt
  rw [vets_view_bind]
  split
  · exact (neutral_pure _).vets w
  · exact vets_misuse

theorem localsAt_neutral (is : List Nat) : Neutral (localsAt is) [] := by
  induction is with
  | nil => exact neutral_pure []
  | cons i rest ih =>
    exact (localAt_neutral i).andThen fun v => ih.andThen fun vars => neutral_pure (v :: vars)

theorem slotOf?_neutral (x : String) : Neutral (slotOf? x) [] := by
  constructor
  intro w
  unfold slotOf?
  rw [vets_view_bind]
  split
  · exact ((localAt_neutral _).andThen fun v => neutral_pure (some v.slot)).vets w
  · exact (neutral_pure none).vets w

theorem closeLevel_neutral : Neutral closeLevel [] := by
  constructor
  intro w
  unfold closeLevel
  rw [vets_view_bind]
  split
  · exact (neutral_pure 0).vets w
  · exact ((localsAt_neutral _).andThen fun vars => neutral_pure (closeLevelOf vars)).vets w

theorem closeCaptured_neutral (line : Nat) : Neutral (closeCaptured line) [] := by
  unfold closeCaptured
  refine closeLevel_neutral.andThen fun level => ?_
  split
  · exact (Emit.asbx_neutral ..).andThen fun _ => neutral_pure ()
  · exact neutral_pure ()

theorem prolongLocals_neutral (first past delta : Nat) :
    Neutral (prolongLocals first past delta) [] := by
  constructor
  intro w
  unfold prolongLocals
  rw [vets_declaredCount_bind]
  split
  · refine (neutral_update fun d => ?_).vets w
    exact ⟨⟨rfl, rfl, d.declarationAt?_prolongLocals first _ delta, .refl _⟩, rfl⟩
  · exact vets_misuse

/-! ## Outer variables -/

theorem Draft.waits_capture (d : Draft) (i : Nat) : d.Waits (d.capture i) := by
  refine ⟨⟨rfl, rfl, fun j => ?_, .refl _⟩, rfl⟩
  show (d.locals.modify i _)[j]?.map Local.declared = d.locals[j]?.map Local.declared
  rw [Array.getElem?_modify]
  split
  · rw [Option.map_map]
    rfl
  · rfl

/-- What the search for an outer variable leaves alone, and how it may fail. -/
structure Resolution.Calm (d : Draft) (enclosing : List Draft) (r : Resolution) : Prop where
  draft : d.Waits r.draft
  around : List.Forall₂ Draft.Waits enclosing r.enclosing
  limit : ∀ why, r.index = .error (.rejected why) → why.IsLimit

theorem addCapture_calm {enclosing' : List Draft} (c : Capture)
    (h : List.Forall₂ Draft.Waits enclosing enclosing') :
    (d.addCapture c enclosing').Calm d enclosing := by
  unfold Draft.addCapture
  split
  · refine ⟨⟨⟨rfl, rfl, fun _ => rfl, .push _ _⟩, rfl⟩, h, ?_⟩
    intro why hwhy
    cases hwhy
  · refine ⟨.refl d, h, ?_⟩
    intro why hwhy
    cases hwhy
    trivial

theorem resolve_calm (x : String) : ∀ d : Draft, (d.resolve x enclosing).Calm d enclosing := by
  induction enclosing with
  | nil =>
    intro d
    unfold Draft.resolve
    split <;> exact ⟨.refl d, .nil, fun _ h => by cases h⟩
  | cons parent rest ih =>
    intro d
    have hparent := ih parent
    unfold Draft.resolve
    split
    · exact ⟨.refl d, Draft.forall₂_waits_refl _, fun _ h => by cases h⟩
    · dsimp only
      split
      · split
        · exact addCapture_calm _ (.cons (parent.waits_capture _) (Draft.forall₂_waits_refl _))
        · exact ⟨.refl d, Draft.forall₂_waits_refl _, fun _ h => by cases h⟩
      · split
        · exact addCapture_calm _ (.cons hparent.draft hparent.around)
        · exact ⟨.refl d, .cons hparent.draft hparent.around, fun _ h => by cases h⟩
        · next e he =>
          refine ⟨.refl d, .cons hparent.draft hparent.around, fun why hwhy => ?_⟩
          cases hwhy
          exact hparent.limit why he

/-- A function that has the globals finds them at once. -/
theorem Draft.HasGlobals.resolve (h : d.HasGlobals) (enclosing : List Draft) :
    (d.resolve "_ENV" enclosing).index ≠ .ok none := by
  obtain ⟨c, hc, hname⟩ := h
  unfold Draft.resolve
  split
  · exact fun h => by cases h
  · next hidx =>
    have hne := List.findIdx?_eq_none_iff.mp hidx c (Array.mem_toList_iff.mpr hc)
    simp [hname] at hne

/-- The globals are found wherever a function around has them. A search that
finds nothing has changed nothing. -/
theorem resolve_none : ∀ d : Draft,
    (d.resolve "_ENV" enclosing).index = .ok none →
      (d.resolve "_ENV" enclosing).draft = d ∧
        (d.resolve "_ENV" enclosing).enclosing = enclosing ∧
        ¬ d.HasGlobals ∧ ∀ e ∈ enclosing, ¬ e.HasGlobals := by
  induction enclosing with
  | nil =>
    intro d hnone
    have hd : ¬ d.HasGlobals := fun h => h.resolve [] hnone
    unfold Draft.resolve at hnone ⊢
    grind
  | cons parent rest ih =>
    intro d hnone
    have hd : ¬ d.HasGlobals := fun h => h.resolve _ hnone
    have hparent := ih parent
    unfold Draft.resolve Draft.addCapture at hnone ⊢
    grind

theorem upvalueOf?_vets (x : String) (w : Workspace) :
    Vets (upvalueOf? x) w [] fun u w' => w.Alike w' ∧ w'.used = w.used ∧
      (x = "_ENV" → u = none → ¬ w'.SeesGlobals) := by
  have hcalm : (w.draft.resolve x w.enclosing).Calm w.draft w.enclosing := resolve_calm x w.draft
  have halike : w.Alike { w with
      draft := (w.draft.resolve x w.enclosing).draft
      enclosing := (w.draft.resolve x w.enclosing).enclosing } :=
      ⟨hcalm.draft.toAlike, hcalm.around⟩
  unfold upvalueOf? Vets
  dsimp only
  cases hidx : (w.draft.resolve x w.enclosing).index with
  | ok u =>
    refine ⟨rfl, halike.seesGlobals, halike, hcalm.draft.used, fun hx hu hsees => ?_⟩
    subst hx hu
    obtain ⟨hdraft, henc, hno, hnone⟩ := resolve_none w.draft hidx
    rcases hsees with h | ⟨e, he, h⟩
    · exact hno (hdraft ▸ h)
    · exact hnone e (henc ▸ he) h
  | error e =>
    cases e with
    | rejected why => exact Or.inl (hcalm.limit why hidx)
    | misused how => trivial

theorem upvalueOf?_neutral (x : String) : Neutral (upvalueOf? x) [] :=
  ⟨fun w => (upvalueOf?_vets x w).mono fun _ _ h => ⟨h.1, h.2.1⟩⟩

/-- The globals are missing only where no function around has them. -/
theorem globalsOperand_neutral : Neutral globalsOperand [] := by
  unfold globalsOperand
  refine (slotOf?_neutral "_ENV").andThen fun r => ?_
  cases r with
  | some r => exact neutral_pure _
  | none =>
    refine ⟨fun w => (upvalueOf?_vets "_ENV" w).andThen fun u w₁ h => ?_⟩
    obtain ⟨halike, hused, hnone⟩ := h
    cases u with
    | some u => exact vets_pure.mpr ⟨rfl, halike, hused⟩
    | none =>
      rw [vets_currentLine_bind, vets_reject]
      exact Or.inr (Or.inr ⟨hnone rfl rfl, _, rfl⟩)

end LuaLowering
