import LuaLowering.Proofs.Shape.Expression
import LuaLowering.Proofs.Vetting.Values

/-!
# Vetting expressions

An expression leaves the registers in use as they were, whatever it took on the
way. It gives them back in different manners: most down to a mark, a call by
counting its arguments, and a table constructor in batches.
-/

namespace LuaLowering

open LowerM

variable {w : Workspace}

theorem loadName_neutral (x : String) (a : Nat) : Neutral (loadName x a) [] := by
  constructor
  intro w
  unfold loadName
  rw [vets_currentLine_bind]
  refine (Neutral.andThen (slotOf?_neutral x) fun r => ?_).vets w
  cases r with
  | some r => exact Emit.plain_neutral ..
  | none =>
    refine (upvalueOf?_neutral x).andThen fun u => ?_
    cases u with
    | some u => exact Emit.plain_neutral ..
    | none =>
      refine globalsOperand_neutral.andThen fun env => ⟨fun w => ?_⟩
      rw [vets_usedRegisters_bind]
      refine ((operand_quiet (Source.vetted_string x) _).vets w).andThen fun key w₁ h₁ => ?_
      refine (freeRegistersTo_vets _ w₁).andThen fun _ w₂ h₂ => ?_
      refine ((getField_neutral ..).vets w₂).mono fun _ w₃ h₃ => ?_
      exact ⟨h₁.trans (h₂.1.trans h₃.1), h₃.2.trans h₂.2⟩

section

variable {s left right : Source} (hs : s.Vetted) (hl : left.Vetted) (hr : right.Vetted)

include hl hr in
theorem loadIndex_neutral (a : Nat) :
    Neutral (loadIndex left right a) (left.exp.offences ++ right.exp.offences) := by
  constructor
  intro w
  unfold loadIndex
  rw [vets_currentLine_bind, vets_usedRegisters_bind]
  refine ((operand_quiet hl _).vets w).bind fun table w₁ h₁ => ?_
  refine ((operand_quiet hr _).vets w₁).finally fun key w₂ h₂ => ?_
  refine (freeRegistersTo_vets _ w₂).andThen fun _ w₃ h₃ => ?_
  refine ((getField_neutral ..).vets w₃).mono fun _ w₄ h₄ => ?_
  exact ⟨h₁.trans (h₂.trans (h₃.1.trans h₄.1)), h₄.2.trans h₃.2⟩

include hs in
theorem loadUnary_neutral (op : UnaryOp) (a : Nat) :
    Neutral (loadUnary op s a) s.exp.offences := by
  constructor
  intro w
  unfold loadUnary
  rw [vets_currentLine_bind, vets_usedRegisters_bind]
  refine ((operand_quiet hs _).vets w).finally fun b w₁ h₁ => ?_
  refine ((Emit.plain_neutral ..).vets w₁).andThen fun _ w₂ h₂ => ?_
  refine (freeRegistersTo_vets _ w₂).mono fun _ w₃ h₃ => ?_
  exact ⟨h₁.trans (h₂.1.trans h₃.1), h₃.2⟩

include hl hr in
theorem loadStrict_neutral (op : BinaryOp) (a : Nat) :
    Neutral (loadStrict op left right a) (left.exp.offences ++ right.exp.offences) := by
  constructor
  intro w
  unfold loadStrict
  rw [vets_currentLine_bind, vets_usedRegisters_bind]
  refine ((operand_quiet hl _).vets w).bind fun b w₁ h₁ => ?_
  refine ((operand_quiet hr _).vets w₁).finally fun c w₂ h₂ => ?_
  refine ((Emit.binary_neutral ..).vets w₂).andThen fun _ w₃ h₃ => ?_
  refine (freeRegistersTo_vets _ w₃).mono fun _ w₄ h₄ => ?_
  exact ⟨h₁.trans (h₂.trans (h₃.1.trans h₄.1)), h₄.2⟩

include hl hr in
theorem loadShortCircuit_neutral (keep a : Nat) :
    Neutral (loadShortCircuit keep left right a) (left.exp.offences ++ right.exp.offences) := by
  constructor
  intro w
  unfold loadShortCircuit
  rw [vets_currentLine_bind, vets_usedRegisters_bind]
  refine ((operand_quiet hl _).vets w).bind fun b w₁ h₁ => ?_
  refine (freeRegistersTo_vets _ w₁).andThen fun _ w₂ h₂ => ?_
  refine ((Emit.plain_neutral ..).vets w₂).andThen fun _ w₃ h₃ => ?_
  refine ((Emit.asbx_neutral ..).vets w₃).andThen fun skip w₄ h₄ => ?_
  refine ((operand_quiet hr _).vets w₄).finally fun c w₅ h₅ => ?_
  refine (freeRegistersTo_vets _ w₅).andThen fun _ w₆ h₆ => ?_
  refine ((Emit.plain_neutral ..).vets w₆).andThen fun _ w₇ h₇ => ?_
  rw [vets_here_bind]
  refine ((aimJump_neutral skip _).vets w₇).mono fun _ w₈ h₈ => ?_
  have hto : w.Alike w₄ := h₁.trans (h₂.1.trans (h₃.1.trans h₄.1))
  have hfrom : w₄.Alike w₈ := h₅.trans (h₆.1.trans (h₇.1.trans h₈.1))
  exact ⟨hto.trans hfrom, h₈.2.trans (h₇.2.trans h₆.2)⟩

include hl hr in
theorem loadBinary_neutral (op : BinaryOp) (a : Nat) :
    Neutral (loadBinary op left right a) (left.exp.offences ++ right.exp.offences) := by
  unfold loadBinary
  split
  · exact loadShortCircuit_neutral hl hr 0 a
  · exact loadShortCircuit_neutral hl hr 1 a
  · exact loadStrict_neutral hl hr _ a

end

theorem loadConcat_neutral {operands : List Source} (hs : ∀ s ∈ operands, s.Vetted) (a : Nat) :
    Neutral (loadConcat operands a) (Source.offencesIn operands) := by
  constructor
  intro w
  unfold loadConcat
  rw [vets_currentLine_bind, vets_usedRegisters_bind]
  refine (loadEach_vets 1 hs w).finally fun _ w₁ h₁ => ?_
  rw [vets_usedRegisters_bind]
  refine ((before_neutral _ 1).vets w₁).andThen fun last w₂ h₂ => ?_
  refine (freeRegistersTo_vets _ w₂).andThen fun _ w₃ h₃ => ?_
  refine ((Emit.plain_neutral ..).vets w₃).mono fun _ w₄ h₄ => ?_
  exact ⟨h₁.1.trans (h₂.1.trans (h₃.1.trans h₄.1)), h₄.2.trans h₃.2⟩

/-! ## Table constructors -/

/-- The sources of a field are vetted. -/
def FieldSource.Vetted : FieldSource → Prop
  | .item value => value.Vetted
  | .entry key value => key.Vetted ∧ value.Vetted

def FieldSource.offences : FieldSource → List Offence
  | .item value => value.exp.offences
  | .entry key value => key.exp.offences ++ value.exp.offences

/-- Storing the fields that are left gives back the registers of the items that
wait. -/
theorem storeFields_vets (line a total : Nat) {fields : List FieldSource}
    (hs : ∀ f ∈ fields, f.Vetted) :
    ∀ done, done + (fields.filter (·.isItem)).length = total → ∀ w,
      Vets (storeFields line a total fields done) w (fields.flatMap (·.offences)) fun _ w' =>
        w.Alike w' ∧ w'.used + waiting total done = w.used := by
  induction fields with
  | nil =>
    intro done htotal w
    have hnone : waiting total done = 0 := if_pos htotal
    exact vets_pure.mpr ⟨rfl, .refl w, by rw [hnone, Nat.add_zero]⟩
  | cons f rest ih =>
    have hrest := ih fun g hg => hs g (List.mem_cons_of_mem _ hg)
    intro done htotal w
    cases f with
    | entry key value =>
      obtain ⟨hkey, hvalue⟩ : key.Vetted ∧ value.Vetted := hs _ List.mem_cons_self
      rw [storeFields, vets_usedRegisters_bind, List.flatMap_cons, FieldSource.offences,
        List.append_assoc]
      refine ((operand_quiet hkey _).vets w).bind fun b w₁ h₁ => ?_
      refine ((operand_quiet hvalue _).vets w₁).bind fun c w₂ h₂ => ?_
      refine (freeRegistersTo_vets _ w₂).andThen fun _ w₃ h₃ => ?_
      refine ((Emit.plain_neutral ..).vets w₃).andThen fun _ w₄ h₄ => ?_
      refine (hrest done htotal w₄).mono fun _ w₅ h₅ => ?_
      refine ⟨h₁.trans (h₂.trans (h₃.1.trans (h₄.1.trans h₅.1))), ?_⟩
      rw [h₅.2, h₄.2, h₃.2]
    | item value =>
      have hvalue : value.Vetted := hs _ List.mem_cons_self
      have hnext : done + 1 + (rest.filter (·.isItem)).length = total := by
        have hcons : ((FieldSource.item value :: rest).filter (·.isItem)).length =
            (rest.filter (·.isItem)).length + 1 := rfl
        omega
      have hwait : waiting total done = done % batchSize := if_neg (by omega)
      rw [storeFields, List.flatMap_cons, FieldSource.offences]
      refine (takeRegister_vets w).andThen fun r w₁ h₁ => ?_
      refine ((hvalue r _).vets w₁).bind fun _ w₂ h₂ => ?_
      have hn : (if (done + 1) % batchSize = 0 then batchSize else (done + 1) % batchSize) =
          done % batchSize + 1 := batchOf_succ done
      dsimp only
      rw [hn]
      split
      · -- a batch is full, or this was the last item
        next hfull =>
        refine (freeRegisters_vets _ w₂).andThen fun _ w₃ h₃ => ?_
        refine ((Emit.plain_neutral ..).vets w₃).andThen fun _ w₄ h₄ => ?_
        refine (hrest (done + 1) hnext w₄).mono fun _ w₅ h₅ => ?_
        refine ⟨h₁.1.trans (h₂.1.trans (h₃.1.trans (h₄.1.trans h₅.1))), ?_⟩
        have hnone : waiting total (done + 1) = 0 := waiting_of_full hfull
        have hcount := h₃.2
        have hused := h₅.2
        rw [h₂.2, h₁.2.2] at hcount
        rw [h₄.2, hnone] at hused
        omega
      · next hfull =>
        refine (hrest (done + 1) hnext w₂).mono fun _ w₃ h₃ => ?_
        refine ⟨h₁.1.trans (h₂.1.trans h₃.1), ?_⟩
        have hmore : waiting total (done + 1) = done % batchSize + 1 := waiting_of_part hfull
        have hused := h₃.2
        rw [h₂.2, h₁.2.2, hmore] at hused
        omega

theorem loadTable_neutral {fields : List FieldSource} (hs : ∀ f ∈ fields, f.Vetted) (a : Nat) :
    Neutral (loadTable fields a) (fields.flatMap (·.offences)) := by
  constructor
  intro w
  unfold loadTable
  rw [vets_currentLine_bind]
  refine ((Emit.newTable_neutral ..).vets w).andThen fun _ w₁ h₁ => ?_
  refine (storeFields_vets _ a _ hs 0 (Nat.zero_add _) w₁).mono fun _ w₂ h₂ => ?_
  have hnone : waiting (fields.filter (·.isItem)).length 0 = 0 := by simp [waiting]
  have hused := h₂.2
  rw [hnone, Nat.add_zero] at hused
  exact ⟨h₁.1.trans h₂.1, hused.trans h₁.2⟩

/-! ## Calls -/

theorem loadMethod_vets (line a : Nat) (method : String) (w : Workspace) :
    Vets (loadMethod line a method) w [] fun _ w' => w.Alike w' ∧ w'.used = w.used + 1 := by
  unfold loadMethod
  refine (takeRegister_vets w).andThen fun _ w₁ h₁ => ?_
  refine (operand_vets (Source.vetted_string method) _ w₁).andThen fun key w₂ h₂ => ?_
  refine ((Emit.plain_neutral ..).vets w₂).andThen fun _ w₃ h₃ => ?_
  have halike : w.Alike w₃ := h₁.1.trans (h₂.1.trans h₃.1)
  rcases h₂.2 with ⟨hused, hplace⟩ | ⟨hused, rfl⟩
  · -- a string that needs no register is a constant
    have hkey : ∀ r, key ≠ .register r := by
      intro r hr
      obtain ⟨x, hx⟩ := hplace r hr
      cases hx
    cases key with
    | register r => exact absurd rfl (hkey r)
    | constant k => exact vets_pure.mpr ⟨rfl, halike, by rw [h₃.2, hused, h₁.2.2]⟩
    | upvalue u => exact vets_pure.mpr ⟨rfl, halike, by rw [h₃.2, hused, h₁.2.2]⟩
  · refine (freeRegister_vets w₃).mono fun _ w₄ h₄ => ⟨halike.trans h₄.1, ?_⟩
    have hcount := h₄.2
    rw [h₃.2, hused, h₁.2.2] at hcount
    omega

theorem loadReceiver_vets (line a : Nat) (method : Option String) (w : Workspace) :
    Vets (loadReceiver line a method) w [] fun _ w' =>
      w.Alike w' ∧ w'.used = w.used + method.toList.length := by
  cases method with
  | some m => exact loadMethod_vets line a m w
  | none => exact vets_pure.mpr ⟨rfl, .refl w, rfl⟩

theorem freeReceiver_vets (method : Option String) (w : Workspace) :
    Vets (freeReceiver method) w [] fun _ w' =>
      w.Alike w' ∧ w'.used + method.toList.length = w.used := by
  cases method with
  | some m => exact freeRegister_vets w
  | none => exact vets_pure.mpr ⟨rfl, .refl w, rfl⟩

theorem layOutCall_neutral {callee : Source} {args : List Source} (hc : callee.Vetted)
    (hs : ∀ s ∈ args, s.Vetted) (method : Option String) (line a : Nat) :
    Neutral (layOutCall callee method args line a)
      (callee.exp.offences ++ Source.offencesIn args) := by
  constructor
  intro w
  unfold layOutCall
  rw [vets_currentLine_bind]
  refine ((setLine_neutral line).vets w).andThen fun _ w₁ h₁ => ?_
  refine ((hc a 1).vets w₁).bind fun _ w₂ h₂ => ?_
  refine (loadReceiver_vets line a method w₂).andThen fun _ w₃ h₃ => ?_
  refine (loadAll_vets hs w₃).finally fun n w₄ h₄ => ?_
  refine (freeRegisters_vets _ w₄).andThen fun _ w₅ h₅ => ?_
  refine (freeReceiver_vets method w₅).andThen fun _ w₆ h₆ => ?_
  refine ((setLine_neutral _).vets w₆).andThen fun _ w₇ h₇ => vets_pure.mpr ⟨rfl, ?_, ?_⟩
  · have hto : w.Alike w₄ := h₁.1.trans (h₂.1.trans (h₃.1.trans h₄.1))
    exact hto.trans (h₅.1.trans (h₆.1.trans h₇.1))
  · have hloaded : w₄.used = w.used + method.toList.length + args.length := by
      rw [h₄.2, h₃.2, h₂.2, h₁.2]
    have hargs := h₅.2
    have hreceiver := h₆.2
    have hline := h₇.2
    omega

end LuaLowering
