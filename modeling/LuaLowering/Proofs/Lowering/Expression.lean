import LuaLowering.Proofs.Steps

/-!
# Lowering expressions

Each function that lowers a kind of expression writes the code that its shape
describes, provided its parts do. All of them leave the registers in use, the
scopes and the locals as they found them.

A part is lowered with a register of its own, so at least one register is in use
then. The one construct that needs this is a concatenation of no operands.
-/

namespace LuaLowering

open LowerM

variable {safe : Prop} {w : Workspace} {s left right : Source} {p lp rp : Part} {a : Nat} {S : Site}

/-- A number of values that a field has a code for. -/
def Counts (n : Int) : Prop := -1 ≤ n ∧ n < 0x1ff

theorem Counts.none : Counts 0 := ⟨by decide, by decide⟩

theorem Counts.one : Counts 1 := ⟨by decide, by decide⟩

theorem Counts.all : Counts allValues := ⟨by decide, by decide⟩

theorem Counts.lt {n : Int} (h : Counts n) : n < 0x7fffffff := Int.lt_trans h.2 (by decide)

theorem Counts.wide {n : Int} (h : Counts n) : S.Wide (countCode n) := by
  intro _
  have hlt := h.2
  rw [countCode_eq h.1 h.2]
  omega

/-- A source writes the code of a part into a register in use. A count that is too large for
its field has been asked for in vain: there is no room for the values. -/
structure Source.Meets (safe : Prop) (s : Source) (p : Part) : Prop where
  exp : s.exp = p.exp
  load : ∀ {w : Workspace} {a : Nat} {want : Int}, w.Wf → a < w.used →
    (safe → want < 0x7fffffff) → Ensures safe (s.load a want) w fun _ w' =>
      w'.used = w.used ∧ Loads [] w w' fun S => Counts want →
        p.shape S w.opened a want w.used w.mark w'.mark

/-- A source whose code does not depend on the count. -/
theorem Source.Meets.of_load (hexp : s.exp = p.exp)
    (h : ∀ {w : Workspace} {a : Nat} {want : Int}, w.Wf → a < w.used →
      Ensures safe (s.load a want) w fun _ w' => w'.used = w.used ∧
        Loads [] w w' fun S => p.shape S w.opened a want w.used w.mark w'.mark) :
    s.Meets safe p :=
  ⟨hexp, fun hw ha _ => (h hw ha).mono fun _ _ hl => ⟨hl.1, hl.2.mono fun _ _ hcode _ => hcode⟩⟩

/-- A register is taken and the value loaded into it. -/
theorem Source.Meets.load_next (hs : s.Meets safe p) (hw : w.Wf) {want : Int}
    (hwant : safe → want < 0x7fffffff) {β : Type} {f : Nat → LowerM β} {Q : β → Workspace → Prop}
    (hf : ∀ w₁ : Workspace, w₁.used = w.used + 1 →
      Loads [] w w₁ (fun S => S.Room (w.used + 1) ∧ (Counts want →
        p.shape S w.opened w.used want (w.used + 1) w.mark w₁.mark)) →
      Ensures safe (f w.used) w₁ Q) :
    Ensures safe (do let r ← takeRegister; s.load r want; f r) w Q := by
  refine (takeRegister_spec hw).bind fun r w₁ => ?_
  rintro ⟨rfl, hused₁, hmark₁, hload₁⟩
  refine (hs.load hload₁.wf (by omega) hwant).bind fun _ w₂ => ?_
  rintro ⟨hused₂, hload₂⟩
  rw [hload₁.opened, hused₁, hmark₁] at hload₂
  exact hf w₂ (hused₂.trans hused₁) (hload₁.trans hload₂)

theorem Source.meets_constant (e : Expr) (k : Constant) :
    (Source.constant e k).Meets safe (.constant e k) :=
  .of_load rfl fun hw ha => by
    rw [Source.constant, ensures_currentLine_bind]
    exact loadConstant_spec hw _ (hw.reg_lt ha) k

theorem Source.meets_string (x : String) : (Source.string x).Meets safe (.string x) :=
  Source.meets_constant _ _

/-! ## Operands -/

theorem constantOperand?_spec (hw : w.Wf) (e : Expr) :
    Ensures safe (constantOperand? e) w fun r w' =>
      w'.used = w.used ∧ w'.mark = w.mark ∧ (∀ o, r = some o → ∃ i, o = .constant i) ∧
        Loads [] w w' fun S => ∀ i, r = some (.constant i) →
          ∃ k, e.literal? = some k ∧ S.Pool i k ∧ i ≤ S.options.constantLimit := by
  unfold constantOperand?
  cases hlit : e.literal? with
  | none =>
    exact ⟨rfl, rfl, (fun _ h => by cases h), (Loads.refl hw).mono fun _ _ _ _ h => by cases h⟩
  | some k =>
    refine (constantIndex_spec hw k).bind fun i w₁ => ?_
    rintro ⟨hused, hmark, -, -, hload⟩
    rw [ensures_options_bind, ensures_pure]
    split
    · next hreach =>
      refine ⟨hused, hmark, (fun o h => ⟨i, (Option.some.inj h).symm⟩),
        hload.mono fun S hS hpool j hj => ?_⟩
      cases hj
      exact ⟨k, rfl, hpool, hS.options ▸ hreach⟩
    · exact ⟨hused, hmark, (fun _ h => by cases h), hload.mono fun _ _ _ _ h => by cases h⟩

/-- What a name is as an operand, if it is a local or an outer variable. -/
inductive NameOperand (S : Site) (opened : List Nat) (kinds : OperandKinds) (x : String) :
    Operand → Prop
  | register {v : Local} (hkind : kinds.registers = true)
      (hlocal : S.local? opened x = some v) : NameOperand S opened kinds x (.register v.slot)
  | upvalue {u : Nat} (hkind : kinds.upvalues = true)
      (hlocal : kinds.registers = true → S.local? opened x = none) (hup : S.Upvalue u x) :
      NameOperand S opened kinds x (.upvalue u)

theorem nameOperand?_spec (hw : w.Wf) (e : Expr) (kinds : OperandKinds) :
    Ensures safe (nameOperand? e kinds) w fun r w' =>
      w'.used = w.used ∧ w'.mark = w.mark ∧ (r.isSome → ∃ x, e = .name x) ∧
        Loads [] w w' fun S => ∀ o x, r = some o → e = .name x →
          NameOperand S w.opened kinds x o := by
  unfold nameOperand?
  split
  · next x =>
    have hlocal : Ensures safe (if kinds.registers = true then slotOf? x else pure none) w
        fun r w' => w' = w ∧ ∀ S : Site, S.Ends w →
          (∀ slot, r = some slot →
            kinds.registers = true ∧ ∃ v, S.local? w.opened x = some v ∧ v.slot = slot) ∧
          (r = none → kinds.registers = true → S.local? w.opened x = none) := by
      split
      · next hkind =>
        refine (slotOf?_spec hw x).mono fun r w' => ?_
        rintro ⟨rfl, hslot⟩
        refine ⟨rfl, fun S hS => ⟨fun slot hr => ?_, fun hr _ => ?_⟩⟩
        · subst hr
          exact ⟨hkind, hslot S hS⟩
        · subst hr
          exact hslot S hS
      · next hkind => exact ⟨rfl, fun S _ => ⟨(fun _ hr => by cases hr), fun _ h => absurd h hkind⟩⟩
    refine hlocal.bind fun r w' => ?_
    rintro ⟨rfl, hslot⟩
    cases r with
    | some slot =>
      refine ⟨rfl, rfl, fun _ => ⟨x, rfl⟩, (Loads.refl hw).mono fun S hS _ o y ho hy => ?_⟩
      obtain ⟨hkind, v, hv, rfl⟩ := (hslot S hS).1 slot rfl
      cases ho
      cases hy
      exact .register hkind hv
    | none =>
      dsimp only
      split
      · next hkind =>
        refine (upvalueOf?_spec hw x).bind fun u w₁ => ?_
        rintro ⟨hused, hmark, hload⟩
        cases u with
        | some u =>
          refine ⟨hused, hmark, fun _ => ⟨x, rfl⟩, hload.mono fun S hS hup o y ho hy => ?_⟩
          cases ho
          cases hy
          exact .upvalue hkind ((hslot S (hS.back hload.continues)).2 rfl) hup
        | none =>
          exact ⟨hused, hmark, (fun h => by cases h), hload.mono fun _ _ _ _ _ h => by cases h⟩
      · exact ⟨rfl, rfl, (fun h => by cases h),
          (Loads.refl hw).mono fun _ _ _ _ _ h => by cases h⟩
  · exact ⟨rfl, rfl, (fun h => by cases h), (Loads.refl hw).mono fun _ _ _ _ _ h => by cases h⟩

/-- An operand takes no register, or the first free one. Only a name is found in
a register that was in use. -/
theorem operand_spec (hs : s.Meets safe p) (hw : w.Wf) (kinds : OperandKinds) :
    Ensures safe (operand s kinds) w fun o w' =>
      ((w'.used = w.used ∧ ((∃ r, o = .register r) → ∃ x, p.exp = .name x)) ∨
        (w'.used = w.used + 1 ∧ o = .register w.used)) ∧
      Loads [] w w' fun S => OperandIs S w.opened p kinds w.used w.mark o w'.used w'.mark := by
  have hconst :
      Ensures safe (if kinds.constants = true then constantOperand? s.exp else pure none) w
      fun r w' => w'.used = w.used ∧ w'.mark = w.mark ∧ (∀ o, r = some o → ∃ i, o = .constant i) ∧
        Loads [] w w' fun S => ∀ i, r = some (.constant i) → kinds.constants = true ∧
          ∃ k, p.exp.literal? = some k ∧ S.Pool i k ∧ i ≤ S.options.constantLimit := by
    rw [hs.exp]
    split
    · next hkind =>
      refine (constantOperand?_spec hw _).mono fun r w' => ?_
      rintro ⟨hused, hmark, hshape, hload⟩
      exact ⟨hused, hmark, hshape, hload.mono fun S _ h i hi => ⟨hkind, h i hi⟩⟩
    · exact ⟨rfl, rfl, (fun _ h => by cases h), (Loads.refl hw).mono fun _ _ _ _ h => by cases h⟩
  unfold operand
  refine hconst.bind fun r w₁ => ?_
  rintro ⟨hused₁, hmark₁, hform₁, hload₁⟩
  cases r with
  | some o =>
    obtain ⟨i, rfl⟩ := hform₁ o rfl
    refine ⟨Or.inl ⟨hused₁, fun ⟨_, h⟩ => by cases h⟩, hload₁.mono fun S _ h => ?_⟩
    obtain ⟨hkind, k, hlit, hpool, hreach⟩ := h i rfl
    rw [hused₁, hmark₁]
    exact .constant hkind hlit hpool hreach
  | none =>
    refine (nameOperand?_spec hload₁.wf s.exp kinds).bind fun r w₂ => ?_
    rintro ⟨hused₂, hmark₂, hname, hload₂⟩
    have hload := hload₁.trans hload₂
    cases r with
    | some o =>
      obtain ⟨x, hx⟩ := hname rfl
      refine ⟨Or.inl ⟨hused₂.trans hused₁, fun _ => ⟨x, hs.exp ▸ hx⟩⟩,
        hload.mono fun S _ h => ?_⟩
      have hop := h.2 o x rfl hx
      rw [hload₁.opened] at hop
      rw [hused₂, hused₁, hmark₂, hmark₁]
      cases hop with
      | register hkind hlocal => exact .register hkind (hs.exp ▸ hx) hlocal
      | upvalue hkind hlocal hup => exact .upvalue hkind (hs.exp ▸ hx) hlocal hup
    | none =>
      refine hs.load_next hload.wf (fun _ => by omega) fun w₃ hused₃ hload₃ => ?_
      have hu : w₂.used = w.used := hused₂.trans hused₁
      rw [hload.opened, hmark₂, hmark₁, hu] at hload₃
      rw [hu] at hused₃ ⊢
      refine ⟨Or.inr ⟨hused₃, rfl⟩, (hload.trans hload₃).mono fun S _ h => ?_⟩
      obtain ⟨-, hroom, hcode⟩ := h
      rw [hused₃]
      exact .fresh hroom (hcode .one)

theorem wide_constant {i : Nat} (h : i ≤ S.options.constantLimit) :
    S.Wide (Operand.constant i).field := by
  intro hlimit
  unfold operandConstants at hlimit
  rw [Operand.field, Instruction.constantField_of_lt (by omega)]
  omega

/-- An operand fits into the wider fields, and into the narrow one if it is no constant. -/
theorem OperandIs.small {kinds : OperandKinds} {o : Operand} {used used' : Nat} {lo hi : Mark}
    (h : OperandIs S w.opened p kinds used lo o used' hi) (hw : w.Wf) (hS : S.Ends w) :
    S.Wide o.field ∧ (kinds.constants = false → o.field < 0x100) := by
  cases h with
  | @constant k i hkind _ _ hreach =>
    exact ⟨wide_constant hreach, fun h => absurd hkind (by simp [h])⟩
  | register _ _ hlocal =>
    have hlt := hS.local_lt hw hlocal
    exact ⟨.of_narrow hlt, fun _ => hlt⟩
  | upvalue _ _ _ hup =>
    have hlt := Nat.lt_succ_of_lt hup.1
    exact ⟨.of_narrow hlt, fun _ => hlt⟩
  | fresh hroom _ =>
    have hlt := Nat.lt_succ_of_lt (hS.room_le hw hroom)
    exact ⟨.of_narrow hlt, fun _ => hlt⟩

theorem GlobalsAre.narrow {env : Operand} (h : GlobalsAre S w.opened env) (hw : w.Wf)
    (hS : S.Ends w) : env.field < 0x100 := by
  cases h with
  | register hlocal => exact hS.local_lt hw hlocal
  | upvalue _ hup => exact Nat.lt_succ_of_lt hup.1

/-! ## Names and operators -/

theorem getField_spec (hw : w.Wf) (line : Nat) (ha : a < 0x100) (table key : Operand) :
    Ensures safe (getField line a table key) w fun _ w' =>
      w'.used = w.used ∧ w'.mark = w.mark.next ∧ Loads [] w w' fun S =>
        S.Wide table.field → S.Wide key.field →
          S.Writes (fieldRead a table key) w.mark w'.mark := by
  unfold getField fieldRead
  cases table <;>
  · refine (plain_spec hw line _ _ _ _).mono fun _ w' h => ⟨h.1, h.2.1, h.2.2.mono ?_⟩
    exact fun S _ hcode ht hk => hcode (Site.keeps_abc ha ht hk)

theorem loadName_spec (hw : w.Wf) (x : String) (ha : a < 0x100) :
    Ensures safe (loadName x a) w fun _ w' =>
      w'.used = w.used ∧
        Loads [] w w' fun S => NameIs S w.opened x a w.used w.mark w'.mark := by
  unfold loadName
  rw [ensures_currentLine_bind]
  refine (slotOf?_spec hw x).bind fun r w' => ?_
  rintro ⟨rfl, hslot⟩
  cases r with
  | some r =>
    refine (plain_spec hw _ _ _ _ _).mono fun _ w₁ => ?_
    rintro ⟨hused, -, hload⟩
    refine ⟨hused, hload.mono fun S hS hcode => ?_⟩
    have hS := hS.back hload.continues
    obtain ⟨v, hv, rfl⟩ := hslot S hS
    exact .register hv (hcode (Site.keeps_abc ha (.of_narrow (hS.local_lt hw hv)) .zero))
  | none =>
    refine (upvalueOf?_spec hw x).bind fun u w₁ => ?_
    rintro ⟨hused₁, hmark₁, hload₁⟩
    cases u with
    | some u =>
      refine (plain_spec hload₁.wf _ _ _ _ _).mono fun _ w₂ => ?_
      rintro ⟨hused₂, -, hload₂⟩
      have hload := hload₁.trans hload₂
      refine ⟨hused₂.trans hused₁, hload.mono fun S hS ⟨hup, hcode⟩ => ?_⟩
      have hu : S.Wide u := .of_narrow (Nat.lt_succ_of_lt hup.1)
      rw [hmark₁] at hcode
      exact .upvalue (hslot S (hS.back hload.continues)) hup (hcode (Site.keeps_abc ha hu .zero))
    | none =>
      refine (globalsOperand_spec hload₁.wf).bind fun env w₂ => ?_
      rintro ⟨hused₂, hmark₂, hload₂⟩
      rw [ensures_usedRegisters_bind]
      refine (operand_spec (Source.meets_string x) hload₂.wf _).bind fun key w₃ => ?_
      rintro ⟨huse₃, hload₃⟩
      have hheld : w₃.opened.length ≤ w₂.used := by
        rw [hload₃.opened]
        exact hload₂.wf.held
      refine (freeRegistersTo_spec hload₃.wf hheld (by omega)).bind fun _ w₄ => ?_
      rintro ⟨hused₄, hmark₄, hload₄⟩
      refine (getField_spec hload₄.wf _ ha env key).mono fun _ w₅ => ?_
      rintro ⟨hused₅, -, hload₅⟩
      have hload := (((hload₁.trans hload₂).trans hload₃).trans hload₄).trans hload₅
      refine ⟨by omega, hload.mono fun S hS ⟨⟨⟨⟨hout, henv⟩, hkey⟩, _⟩, hcode⟩ => ?_⟩
      have hS := hS.back hload.continues
      rw [hload₁.opened] at henv
      rw [hload₂.opened, hload₁.opened, hmark₂, hmark₁, hused₂, hused₁] at hkey
      rw [hmark₄] at hcode
      exact .global (hslot S hS) hout henv hkey
        (hcode (.of_narrow (henv.narrow hw hS)) (hkey.small hw hS).1)

/-- An operand, after which the registers it took are free again. -/
theorem operand_freed_spec (hs : s.Meets safe p) (hw : w.Wf) (kinds : OperandKinds) (mark : Nat)
    (hheld : w.opened.length ≤ mark) (hmark : mark ≤ w.used) {β : Type} {f : Operand → LowerM β}
    {Q : β → Workspace → Prop}
    (hf : ∀ (o : Operand) (w₁ w₂ : Workspace), w₂.used = mark → w₂.mark = w₁.mark →
      Loads [] w w₂ (fun S => OperandIs S w.opened p kinds w.used w.mark o w₁.used w₁.mark) →
      Ensures safe (f o) w₂ Q) :
    Ensures safe (do let o ← operand s kinds; freeRegistersTo mark; f o) w Q := by
  refine (operand_spec hs hw kinds).bind fun o w₁ => ?_
  rintro ⟨huse₁, hload₁⟩
  refine (freeRegistersTo_spec hload₁.wf (by rw [hload₁.opened]; exact hheld) (by omega)).bind
    fun _ w₂ => ?_
  rintro ⟨hused₂, hmark₂, hload₂⟩
  exact hf o w₁ w₂ hused₂ hmark₂ ((hload₁.trans hload₂).mono fun S _ h => h.1)

theorem loadIndex_spec {table key : Source} {tp kp : Part} (ht : table.Meets safe tp)
    (hk : key.Meets safe kp) (hw : w.Wf) (ha : a < 0x100) :
    Ensures safe (loadIndex table key a) w fun _ w' =>
      w'.used = w.used ∧
        Loads [] w w' fun S => IndexIs S w.opened tp kp a w.used w.mark w'.mark := by
  unfold loadIndex
  rw [ensures_currentLine_bind, ensures_usedRegisters_bind]
  refine (operand_spec ht hw _).bind fun t w₁ => ?_
  rintro ⟨huse₁, hload₁⟩
  have hheld : w₁.opened.length ≤ w.used := by rw [hload₁.opened]; exact hw.held
  refine operand_freed_spec hk hload₁.wf _ w.used hheld (by omega) fun k w₂ w₃ hused₃ hmark₃
    hload₃ => ?_
  refine (getField_spec hload₃.wf _ ha t k).mono fun _ w₄ => ?_
  rintro ⟨hused₄, -, hload₄⟩
  have hload := (hload₁.trans hload₃).trans hload₄
  refine ⟨hused₄.trans hused₃, hload.mono fun S hS ⟨⟨htable, hkey⟩, hcode⟩ => ?_⟩
  have hS := hS.back hload.continues
  rw [hload₁.opened] at hkey
  rw [hmark₃] at hcode
  exact ⟨t, k, _, _, _, _, htable, hkey, hcode (htable.small hw hS).1 (hkey.small hw hS).1⟩

theorem loadUnary_spec (hs : s.Meets safe p) (hw : w.Wf) (op : UnaryOp) (ha : a < 0x100) :
    Ensures safe (loadUnary op s a) w fun _ w' =>
      w'.used = w.used ∧
        Loads [] w w' fun S => UnaryIs S w.opened op p a w.used w.mark w'.mark := by
  unfold loadUnary
  rw [ensures_currentLine_bind, ensures_usedRegisters_bind]
  refine (operand_spec hs hw _).bind fun b w₁ => ?_
  rintro ⟨huse₁, hload₁⟩
  refine (plain_spec hload₁.wf _ _ a _ _).bind fun _ w₂ => ?_
  rintro ⟨hused₂, -, hload₂⟩
  have hload := hload₁.trans hload₂
  have hheld : w₂.opened.length ≤ w.used := by rw [hload.opened]; exact hw.held
  refine (freeRegistersTo_spec hload₂.wf hheld (by omega)).mono fun _ w₃ => ?_
  rintro ⟨hused₃, hmark₃, hload₃⟩
  have hload₀₃ := hload.trans hload₃
  refine ⟨hused₃, hload₀₃.mono fun S hS ⟨⟨hop, hcode⟩, _⟩ => ?_⟩
  rw [hmark₃]
  have hb := (hop.small hw (hS.back hload₀₃.continues)).1
  exact ⟨b, _, _, hop, hcode (Site.keeps_abc ha hb .zero)⟩

theorem loadShortCircuit_spec (hl : left.Meets safe lp) (hr : right.Meets safe rp) (hw : w.Wf)
    {keep : Nat} (hkeep : keep < 0x100) (ha : a < 0x100) :
    Ensures safe (loadShortCircuit keep left right a) w fun _ w' =>
      w'.used = w.used ∧
        Loads [] w w' fun S => ShortCircuitIs S w.opened keep lp rp a w.used w.mark w'.mark := by
  unfold loadShortCircuit
  rw [ensures_currentLine_bind, ensures_usedRegisters_bind]
  refine operand_freed_spec hl hw _ w.used hw.held le_rfl
    fun b w₁ w₂ hused₂ hmark₂ hload₂ => ?_
  refine (plain_spec hload₂.wf _ _ a _ _).bind fun _ w₃ => ?_
  rintro ⟨hused₃, hmark₃, hload₃⟩
  refine (asbx_hole hload₃.wf _ _ 0).bind fun skip w₄ => ?_
  rintro ⟨rfl, hused₄, hmark₄, hjump, hload₄⟩
  have hload₀₄ := (hload₂.trans hload₃).trans hload₄
  have hheld : w₄.opened.length ≤ w.used := by rw [hload₀₄.opened]; exact hw.held
  refine operand_freed_spec hr hload₄.wf _ w.used hheld (by omega)
    fun c w₅ w₆ hused₆ hmark₆ hload₆ => ?_
  refine (plain_spec hload₆.wf _ _ a _ _).bind fun _ w₇ => ?_
  rintro ⟨hused₇, hmark₇, hload₇⟩
  rw [ensures_here_bind]
  have hload₄₇ := hload₆.trans hload₇
  have hjump₇ : w₇.draft.code[w₃.draft.pc]? = some (.asbx .jmp 0 0) := by
    rw [hload₄₇.below _ (Array.getElem?_eq_some_iff.mp hjump).1, hjump]
  have hload₀₇ := hload₀₄.trans hload₄₇
  refine (aimJump_wrote hload₀₇.toWrote List.not_mem_nil hjump₇ (by decide) le_rfl).mono
    fun _ w₈ => ?_
  rintro ⟨hcode₈, -, hwrote₈⟩
  have hload₀₈ := hcode₈.loads hload₀₇ hwrote₈
  refine ⟨hcode₈.used.trans (hused₇.trans hused₆), hload₀₈.mono
    fun S hS ⟨⟨⟨⟨hleft, htest⟩, _⟩, hright, hmove⟩, hskip⟩ => ?_⟩
  have hS := hS.back hload₀₈.continues
  rw [hcode₈.mark]
  have hpc : w₃.draft.pc = w₁.mark.next.pc := by rw [← Workspace.pc_mark, hmark₃, hmark₂]
  rw [hmark₃, hmark₂] at htest
  rw [hload₀₄.opened, hmark₄, hmark₃, hmark₂, hused₄, hused₃, hused₂] at hright
  rw [hmark₆] at hmove
  rw [hpc] at hskip
  exact ⟨b, c, _, _, _, _, hleft,
    htest (Site.keeps_abc ha (hleft.small hw hS).1 (.of_narrow hkeep)), hskip, hright,
    hmove (Site.keeps_abc ha (hright.small hw hS).1 .zero)⟩

/-- A comparison is of the two operands, in one order or the other. -/
theorem keeps_comparison {op : BinaryOp} {code : Opcode} {b c outcome left right : Nat}
    (h : Emit.comparison? op b c = some (code, outcome, left, right)) (hb : S.Wide b)
    (hc : S.Wide c) : S.Keeps (.abc code outcome left right) := by
  cases op <;> cases h <;> first
    | exact Site.keeps_abc (by decide) hb hc
    | exact Site.keeps_abc (by decide) hc hb

theorem binary_spec (hw : w.Wf) (line : Nat) (op : BinaryOp) (ha : a < 0x100) (b c : Nat) :
    Ensures safe (Emit.binary line op a b c) w fun _ w' =>
      w'.used = w.used ∧ Loads [] w w' fun S =>
        S.Wide b → S.Wide c → CombinedIs S op a b c w.mark w'.mark := by
  unfold Emit.binary CombinedIs
  cases Emit.arithmetic? op with
  | some code =>
    refine (plain_spec hw line code a b c).mono fun _ w₁ => ?_
    rintro ⟨hused, -, hload⟩
    exact ⟨hused, hload.mono fun S _ hcode hb hc => hcode (Site.keeps_abc ha hb hc)⟩
  | none =>
    dsimp only
    cases htest : Emit.comparison? op b c with
    | some test =>
      obtain ⟨code, outcome, left, right⟩ := test
      dsimp only
      refine (plain_spec hw line _ _ _ _).bind fun _ w₁ => ?_
      rintro ⟨hused₁, hmark₁, hload₁⟩
      rw [Emit.jump, Emit.asbx, if_pos (canBias_of_le (by decide))]
      refine (emit_written hload₁.wf line (.asbx .jmp 0 1)).bind fun _ w₂ => ?_
      rintro ⟨-, hused₂, hmark₂, -, hload₂⟩
      refine (plain_spec hload₂.wf line _ _ _ _).bind fun _ w₃ => ?_
      rintro ⟨hused₃, hmark₃, hload₃⟩
      refine (plain_spec hload₃.wf line _ _ _ _).mono fun _ w₄ => ?_
      rintro ⟨hused₄, hmark₄, hload₄⟩
      refine ⟨by omega, (((hload₁.trans hload₂).trans hload₃).trans hload₄).mono
        fun S _ hS hb hc => ?_⟩
      obtain ⟨⟨⟨hcode, hjump⟩, hfalse⟩, htrue⟩ := hS
      rw [hmark₁] at hcode hjump
      rw [hmark₃, hmark₂, hmark₁] at hfalse htrue
      exact ⟨hcode (keeps_comparison htest hb hc), hjump (Site.keeps_asbx (by decide) (by decide)),
        hfalse (Site.keeps_abc ha .zero (.of_narrow (by decide))),
        htrue (Site.keeps_abc ha (.of_narrow (by decide)) .zero)⟩
    | none => exact ⟨rfl, (Loads.refl hw).mono fun _ _ _ _ _ => rfl⟩

theorem loadStrict_spec (hl : left.Meets safe lp) (hr : right.Meets safe rp) (hw : w.Wf)
    (op : BinaryOp) (ha : a < 0x100) :
    Ensures safe (loadStrict op left right a) w fun _ w' =>
      w'.used = w.used ∧
        Loads [] w w' fun S => StrictIs S w.opened op lp rp a w.used w.mark w'.mark := by
  unfold loadStrict
  rw [ensures_currentLine_bind, ensures_usedRegisters_bind]
  refine (operand_spec hl hw _).bind fun b w₁ => ?_
  rintro ⟨huse₁, hload₁⟩
  refine (operand_spec hr hload₁.wf _).bind fun c w₂ => ?_
  rintro ⟨huse₂, hload₂⟩
  refine (binary_spec hload₂.wf _ op ha _ _).bind fun _ w₃ => ?_
  rintro ⟨hused₃, hload₃⟩
  have hload := (hload₁.trans hload₂).trans hload₃
  have hheld : w₃.opened.length ≤ w.used := by rw [hload.opened]; exact hw.held
  refine (freeRegistersTo_spec hload₃.wf hheld (by omega)).mono fun _ w₄ => ?_
  rintro ⟨hused₄, hmark₄, hload₄⟩
  have hload₀₄ := hload.trans hload₄
  refine ⟨hused₄, hload₀₄.mono fun S hS ⟨⟨⟨hleft, hright⟩, hcode⟩, _⟩ => ?_⟩
  have hS := hS.back hload₀₄.continues
  rw [hload₁.opened] at hright
  rw [hmark₄]
  exact ⟨b, c, _, _, _, _, hleft, hright, hcode (hleft.small hw hS).1 (hright.small hw hS).1⟩

theorem loadBinary_spec (hl : left.Meets safe lp) (hr : right.Meets safe rp) (hw : w.Wf)
    (op : BinaryOp) (ha : a < 0x100) :
    Ensures safe (loadBinary op left right a) w fun _ w' =>
      w'.used = w.used ∧
        Loads [] w w' fun S => BinaryIs S w.opened op lp rp a w.used w.mark w'.mark := by
  cases op with
  | and => exact loadShortCircuit_spec hl hr hw (by decide) ha
  | or => exact loadShortCircuit_spec hl hr hw (by decide) ha
  | _ => exact loadStrict_spec hl hr hw _ ha

end LuaLowering
