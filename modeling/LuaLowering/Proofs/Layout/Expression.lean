import LuaLowering.Proofs.Layout.Straight

/-!
# The code of expressions is straight

Whatever an expression is made of, its code works on the register that it loads and on
registers taken above it. Nothing is asked of the state of the builder but that the target
is in use. A part is loaded into a register that is fresh, so its code is straight from
there, and that is above the target; what remains is the few instructions that put the
parts together.
-/

namespace LuaLowering

open LowerM

variable {α : Type} {w w₁ w₂ w' : Workspace} {a : Nat} {s left right : Source} {op : Opcode}
  {sources : List Source} {fields : List FieldSource}

/-! ## The builder's steps -/

theorem setLine_writes (line : Nat) :
    Ensures False (setLine line) w fun _ w' => w.Writes [] w' ∧ w'.used = w.used := by
  refine ⟨⟨⟨rfl, rfl, rfl, rfl, .refl _, .refl _, id, fun x => ?_, le_rfl, fun _ _ => rfl⟩,
    rfl, nofun⟩, rfl⟩
  exact Draft.knows_congr (by rfl) x w.enclosing

theorem setLine_straight (a line : Nat) :
    Ensures False (setLine line) w fun _ w' => w.Straight a w' ∧ w'.used = w.used :=
  (setLine_writes line).mono fun _ _ h => ⟨h.1.straight_nil a, h.2⟩

theorem plain_straight (line : Nat) {c : Nat} (b : Nat)
    (hways : op.ways (a % 0x100) (c % 0x200) = [(.next, [])]) :
    Ensures False (Emit.plain line op a b c) w fun _ w' => w.Straight a w' ∧ w'.used = w.used := by
  refine (plain_writes line op a b c).mono fun _ w' h => ⟨h.1.straight_next ?_ ?_, h.2⟩
  · exact Instruction.worksFrom_of_first (Instruction.opcode?_abc ..) (Instruction.a_abc ..)
      (Nat.le_refl a) (Or.inl rfl)
  · rwa [Instruction.ways_eq (Instruction.opcode?_abc ..), Instruction.a_abc, Instruction.c_abc]

theorem abx_straight (line : Nat) (bx : Nat) (hways : ∀ r c, op.ways r c = [(.next, [])]) :
    Ensures False (Emit.abx line op a bx) w fun _ w' => w.Straight a w' ∧ w'.used = w.used := by
  refine (emit_writes line (.abx op a bx)).mono fun _ w' h => ⟨h.1.straight_next ?_ ?_, h.2⟩
  · exact Instruction.worksFrom_of_first (Instruction.opcode?_abx ..) (Instruction.a_abx ..)
      (Nat.le_refl a) (Or.inl rfl)
  · rw [Instruction.ways_eq (Instruction.opcode?_abx ..), hways]

theorem freeRegistersTo_straight (a mark : Nat) :
    Ensures False (freeRegistersTo mark) w fun _ w' => w.Straight a w' ∧ w'.used = mark :=
  (freeRegistersTo_writes mark).mono fun _ _ h => ⟨h.1.straight_nil a, h.2.1⟩

theorem freeRegisters_writes (n : Nat) :
    Ensures False (freeRegisters n) w fun _ w' => w.Writes [] w' ∧ w'.used + n = w.used := by
  refine ((giveBack_ensures (givesBack_free n)).and (freeRegisters_vets n w).ensures).mono ?_
  rintro _ w' ⟨⟨registers, hlimit, rfl⟩, -, hused⟩
  exact ⟨.nothing rfl hlimit (.refl _), hused⟩

theorem freeRegisters_straight (a n : Nat) :
    Ensures False (freeRegisters n) w fun _ w' => w.Straight a w' ∧ w'.used + n = w.used :=
  (freeRegisters_writes n).mono fun _ _ h => ⟨h.1.straight_nil a, h.2⟩

theorem loadConstant_straight (line : Nat) (k : Constant) :
    Ensures False (Emit.loadConstant line a k) w fun _ w' => w.Straight a w' := by
  refine (constantIndex_writes k).bind fun i w₁ h => ?_
  have hindex : w.Straight a w₁ := h.1.straight_nil a
  split
  · refine (abx_straight line i fun _ _ => rfl).bind fun _ w₂ h₂ => ?_
    exact hindex.trans h₂.1
  · refine (emit_writes line (.abx .loadKx a 0)).bind fun _ w₂ h₂ => ?_
    refine (emit_writes line (.ax .extraArg i)).bind fun _ w₃ h₃ => ?_
    have hloads := Instruction.opcode?_abx .loadKx a 0
    have hextra := Instruction.opcode?_ax .extraArg i
    -- the index is in a word of its own, which is skipped
    refine hindex.trans ((h₂.1.append h₃.1).straight ⟨⟨?_, ?_⟩, ⟨?_, ?_⟩, trivial⟩)
    · exact Instruction.worksFrom_of_first hloads (Instruction.a_abx ..) (Nat.le_refl a)
        (Or.inl rfl)
    · refine Instruction.proceeds_skip ?_ (Nat.lt_succ_self _)
      simp [Instruction.ways_eq hloads]
    · exact Instruction.worksFrom_of_silent hextra rfl a _
    · exact Instruction.proceeds_next (Instruction.ways_eq hextra) (Nat.lt_succ_self _)

theorem getField_straight (line : Nat) (table key : Operand) :
    Ensures False (getField line a table key) w fun _ w' => w.Straight a w' := by
  cases table <;> exact (plain_straight line _ rfl).mono fun _ _ h => h.1

/-- The instructions of an operator: one, or a comparison with both ways to load its
outcome. -/
theorem binary_straight (line : Nat) (op : BinaryOp) (b c : Nat) :
    Ensures False (Emit.binary line op a b c) w fun _ w' => w.Straight a w' := by
  refine (binary_writes line op a b c).mono fun _ w' h => h.1.straight ?_
  have hfirst : ∀ op b c, (Instruction.abc op a b c).WorksFrom a w.draft.registers.limit :=
    fun op b c => Instruction.worksFrom_of_first (Instruction.opcode?_abc ..)
      (Instruction.a_abc ..) (Nat.le_refl a) (Or.inl rfl)
  have hways : ∀ op b c, (Instruction.abc op a b c).ways = op.ways (a % 0x100) (c % 0x200) :=
    fun op b c => by
      rw [Instruction.ways_eq (Instruction.opcode?_abc ..), Instruction.a_abc, Instruction.c_abc]
  unfold Emit.combination
  cases harith : Emit.arithmetic? op with
  | some code =>
    refine ⟨⟨hfirst code b c, Instruction.proceeds_next ?_ (Nat.lt_succ_self _)⟩, trivial⟩
    rw [hways]
    cases op <;> cases harith <;> rfl
  | none =>
    dsimp only
    cases hcompare : Emit.comparison? op b c with
    | none => trivial
    | some test =>
      obtain ⟨code, outcome, l, r⟩ := test
      have htest : code = .eq ∨ code = .lt ∨ code = .le := by
        cases op <;> cases hcompare <;> simp
      have hop := Instruction.opcode?_abc code outcome l r
      refine ⟨⟨Instruction.worksFrom_of_silent hop ?_ a _, Instruction.proceeds_skip ?_ ?_⟩,
        ⟨Instruction.worksFrom_of_silent (Instruction.opcode?_asbx ..) rfl a _,
          Instruction.proceeds_jump (by decide) (by decide) ?_⟩,
        ⟨hfirst _ _ _, Instruction.proceeds_skip ?_ ?_⟩,
        ⟨hfirst _ _ _, Instruction.proceeds_next (hways _ _ _) ?_⟩, trivial⟩
      · rcases htest with rfl | rfl | rfl <;> rfl
      · rw [Instruction.ways_eq hop]
        rcases htest with rfl | rfl | rfl <;> simp
      · simp
      · simp only [List.length_cons, List.length_nil]
        omega
      · simp [hways]
      · simp
      · simp

/-! ## Operands -/

/-- Where an operand was found: a literal in the pool, a name where the variable is, and
anything else in a fresh register, into which it was loaded. -/
inductive Workspace.Finds (w : Workspace) (s : Source) (kinds : OperandKinds) (w' : Workspace) :
    Operand → Prop
  | constant {k c : Constant} {i : Nat} (hkinds : kinds.constants = true)
      (hk : s.exp.literal? = some k) (hi : i ≤ w.options.constantLimit)
      (hc : w'.draft.constants[i]? = some c) (hck : c = k ∨ c.OppositeZeros k)
      (hwrites : w.Writes [] w') (hused : w'.used = w.used) : Finds w s kinds w' (.constant i)
  | register {x : String} {r : Nat} (hx : s.exp = .name x) (hr : w.slot? x = some r)
      (hwrites : w.Writes [] w') (hused : w'.used = w.used) : Finds w s kinds w' (.register r)
  | upvalue {x : String} {u : Nat} (hx : s.exp = .name x) (hkinds : kinds.upvalues = true)
      (hwrites : w.Writes [] w') (hused : w'.used = w.used) : Finds w s kinds w' (.upvalue u)
  | fresh {u : Workspace}
      (hname : ∀ x, s.exp = .name x → kinds.registers = true → w.slot? x = none)
      (hwrites : w.Writes [] u) (hused : u.used = w.used + 1)
      (hroom : u.used ≤ u.draft.registers.limit) (hload : s.load w.used 1 u = .ok () w') :
      Finds w s kinds w' (.register w.used)

variable {kinds : OperandKinds} {o : Operand}

/-- Steps that write nothing may come first. -/
theorem Workspace.Writes.finds (h : w.Writes [] w₁) (hused : w₁.used = w.used)
    (hrest : w₁.Finds s kinds w' o) : w.Finds s kinds w' o := by
  cases hrest with
  | constant hkinds hk hi hc hck hwrites hused' =>
    exact .constant hkinds hk (h.grows.options ▸ hi) hc hck (h.append hwrites)
      (hused'.trans hused)
  | register hx hr hwrites hused' =>
    exact .register hx (h.grows.slot? _ ▸ hr) (h.append hwrites) (hused'.trans hused)
  | upvalue hx hkinds hwrites hused' =>
    exact .upvalue hx hkinds (h.append hwrites) (hused'.trans hused)
  | fresh hname hwrites hused' hroom hload =>
    rw [hused] at hused' hload ⊢
    refine .fresh (fun x hx hkinds => ?_) (h.append hwrites) hused' hroom hload
    rw [← h.grows.slot?]
    exact hname x hx hkinds

theorem constantOperand?_finds (hkinds : kinds.constants = true) :
    Ensures False (constantOperand? s.exp) w fun found w' => w.Writes [] w' ∧ w'.used = w.used ∧
      ∀ o, found = some o → w.Finds s kinds w' o := by
  unfold constantOperand?
  cases hk : s.exp.literal? with
  | none => exact ⟨.refl w, rfl, nofun⟩
  | some k =>
    refine (constantIndex_writes k).bind fun i w₁ h => ?_
    obtain ⟨hwrites, hused, c, hc, hck⟩ := h
    rw [ensures_options_bind, ensures_pure]
    refine ⟨hwrites, hused, fun o ho => ?_⟩
    obtain ⟨hle, ho⟩ := Option.ite_none_right_eq_some.mp ho
    obtain rfl := Option.some.inj ho
    exact .constant hkinds hk (hwrites.grows.options ▸ hle) hc hck hwrites hused

theorem nameOperand?_finds :
    Ensures False (nameOperand? s.exp kinds) w fun found w' => w.Writes [] w' ∧ w'.used = w.used ∧
      (∀ o, found = some o → w.Finds s kinds w' o) ∧
      (found = none → ∀ x, s.exp = .name x → kinds.registers = true → w.slot? x = none) := by
  have hnothing : w.Writes [] w := .refl w
  have hlocal : ∀ x, Ensures False (if kinds.registers then slotOf? x else pure none) w
      fun r w' => w' = w ∧ (∀ q, r = some q → w.slot? x = some q) ∧
        (r = none → kinds.registers = true → w.slot? x = none) := by
    intro x
    split
    · exact (slotOf?_ensures x).mono fun r w' h =>
        ⟨h.1, fun q hq => h.2.symm.trans hq, fun hr _ => h.2.symm.trans hr⟩
    · next hno => exact ⟨rfl, nofun, fun _ hyes => absurd hyes hno⟩
  unfold nameOperand?
  cases hx : s.exp with
  | name x =>
    refine (hlocal x).bind fun r w₁ h => ?_
    obtain ⟨rfl, hr, hnone⟩ := h
    cases r with
    | some r =>
      refine ⟨hnothing, rfl, fun o ho => ?_, nofun⟩
      obtain rfl := Option.some.inj ho
      exact .register hx (hr r rfl) hnothing rfl
    | none =>
      have hmissing : ∀ y, Expr.name x = .name y → kinds.registers = true →
          w₁.slot? y = none := by
        intro y hy hkinds
        obtain rfl := Expr.name.inj hy
        exact hnone rfl hkinds
      by_cases hup : kinds.upvalues = true
      · rw [if_pos hup]
        refine (upvalueOf?_writes x).bind fun u w₂ h => ?_
        obtain ⟨hwrites, hused, -⟩ := h
        cases u with
        | none => exact ⟨hwrites, hused, nofun, fun _ => hmissing⟩
        | some u =>
          refine ⟨hwrites, hused, fun o ho => ?_, nofun⟩
          obtain rfl := Option.some.inj ho
          exact .upvalue hx hup hwrites hused
      · rw [if_neg hup]
        exact ⟨hnothing, rfl, nofun, fun _ => hmissing⟩
  | _ => exact ⟨hnothing, rfl, nofun, fun _ => nofun⟩

theorem operand_finds (s : Source) (kinds : OperandKinds) :
    Ensures False (operand s kinds) w fun o w' => w.Finds s kinds w' o := by
  have hconstant : Ensures False (if kinds.constants then constantOperand? s.exp else pure none) w
      fun found w' => w.Writes [] w' ∧ w'.used = w.used ∧
        ∀ o, found = some o → w.Finds s kinds w' o := by
    split
    · next hconstants => exact constantOperand?_finds hconstants
    · exact ⟨.refl w, rfl, nofun⟩
  refine hconstant.bind fun found w₁ h => ?_
  obtain ⟨hwrites, hused, hfound⟩ := h
  cases found with
  | some o => exact hfound o rfl
  | none =>
    refine nameOperand?_finds.bind fun found w₂ h => ?_
    obtain ⟨hwrites', hused', hfound', hmissing⟩ := h
    cases found with
    | some o => exact hwrites.finds hused (hfound' o rfl)
    | none =>
      refine takeRegister_writes.bind fun r w₃ h => ?_
      obtain ⟨hwrites₃, rfl, hused₃, hroom⟩ := h
      refine (ensures_run (s.load w₂.used 1) w₃).bind fun _ w₄ hload => ?_
      rw [ensures_pure]
      have hname : ∀ x, s.exp = .name x → kinds.registers = true → w₂.slot? x = none := by
        intro x hx hkinds
        rw [hwrites'.grows.slot?]
        exact hmissing rfl x hx hkinds
      exact hwrites.finds hused
        (hwrites'.finds hused' (.fresh hname hwrites₃ hused₃ hroom hload))

/-- A source that is loaded by straight code and leaves as many registers in use. -/
structure Source.Tidy (s : Source) : Prop where
  vetted : s.Vetted
  straight : ∀ ⦃w : Workspace⦄ ⦃a : Nat⦄ (want : Int), a < w.used →
    Ensures False (s.load a want) w fun _ w' => w.Straight a w'

namespace Source.Tidy

theorem load (hs : s.Tidy) (want : Int) (ha : a < w.used) :
    Ensures False (s.load a want) w fun _ w' => w.Straight a w' ∧ w'.used = w.used :=
  ((hs.straight want ha).and ((hs.vetted a want).vets w).ensures).mono fun _ _ h => ⟨h.1, h.2.2⟩

theorem constant {e : Expr} {k : Constant} (h : e.literal? = some k) : (Source.constant e k).Tidy :=
  ⟨vetted_constant e k h, fun w _ _ _ => loadConstant_straight w.draft.line k⟩

/-- A source that is loaded into a fresh register. -/
theorem fresh (hs : s.Tidy) {u : Workspace} {want : Int} (hwrites : w.Writes [] u)
    (hused : u.used = w.used + 1) (hroom : u.used ≤ u.draft.registers.limit)
    (hload : s.load w.used want u = .ok () w') (ha : a ≤ w.used) :
    w.Straight a w' ∧ w'.used = w.used + 1 := by
  have hlt : w.used < u.used := by omega
  obtain ⟨hstraight, hused'⟩ := (hs.load want hlt).of_ok hload
  refine ⟨(hwrites.straight_nil a).trans (hstraight.mono ha (Or.inr ?_)), hused'.trans hused⟩
  omega

end Source.Tidy

theorem Workspace.Finds.straight (h : w.Finds s kinds w' o) (hs : s.Tidy) (ha : a ≤ w.used) :
    w.Straight a w' ∧ w.used ≤ w'.used := by
  cases h with
  | constant _ _ _ _ _ hwrites hused | register _ _ hwrites hused | upvalue _ _ hwrites hused =>
    exact ⟨hwrites.straight_nil a, Nat.le_of_eq hused.symm⟩
  | fresh _ hwrites hused hroom hload =>
    obtain ⟨hstraight, hused'⟩ := hs.fresh hwrites hused hroom hload ha
    exact ⟨hstraight, by omega⟩

theorem operand_straight (hs : s.Tidy) (kinds : OperandKinds) (ha : a ≤ w.used) :
    Ensures False (operand s kinds) w fun _ w' => w.Straight a w' ∧ w.used ≤ w'.used :=
  (operand_finds s kinds).mono fun _ _ h => h.straight hs ha

theorem globalsOperand_straight (a : Nat) :
    Ensures False globalsOperand w fun _ w' => w.Straight a w' ∧ w'.used = w.used := by
  refine (slotOf?_ensures "_ENV").bind fun r w₁ h => ?_
  obtain ⟨rfl, -⟩ := h
  cases r with
  | some r => exact ⟨.refl _ a, rfl⟩
  | none =>
    refine (upvalueOf?_writes "_ENV").bind fun u w₂ h => ?_
    cases u with
    | none => exact (ensures_true _ _).bind fun _ _ _ => ensures_reject
    | some u => exact ⟨h.1.straight_nil a, h.2.1⟩

/-! ## Lists of values -/

/-- Each value of a list is loaded into a register of its own, the next one each time. -/
theorem loadEach_straight (n : Int) (hs : ∀ s ∈ sources, s.Tidy) :
    ∀ ⦃w : Workspace⦄, a ≤ w.used →
      Ensures False (loadEach n sources) w fun _ w' =>
        w.Straight a w' ∧ w'.used = w.used + sources.length := by
  induction sources with
  | nil => exact fun w _ => ⟨.refl w a, rfl⟩
  | cons s rest ih =>
    intro w ha
    have hhead : ∀ k, Ensures False (do let r ← takeRegister; s.load r k) w fun _ w' =>
        w.Straight a w' ∧ w'.used = w.used + 1 := by
      intro k
      refine takeRegister_writes.bind fun r w₁ h => ?_
      obtain ⟨hwrites, rfl, hused, hroom⟩ := h
      refine (ensures_run (s.load w.used k) w₁).mono fun _ w₂ hload => ?_
      exact (hs s List.mem_cons_self).fresh hwrites hused hroom hload ha
    cases rest with
    | nil => exact hhead n
    | cons t others =>
      rw [loadEach, ← bind_assoc]
      · refine (hhead 1).bind fun _ w₁ h₁ => ?_
        have hrest := ih fun t ht => hs t (List.mem_cons_of_mem _ ht)
        refine (hrest (by omega)).mono fun _ w₂ h₂ => ?_
        refine ⟨h₁.1.trans h₂.1, ?_⟩
        rw [h₂.2, h₁.2, List.length_cons (a := s)]
        omega
      · exact fun h => by cases h

theorem loadAll_straight (hs : ∀ s ∈ sources, s.Tidy) (ha : a ≤ w.used) :
    Ensures False (loadAll sources) w fun _ w' =>
      w.Straight a w' ∧ w'.used = w.used + sources.length := by
  unfold loadAll
  split <;> exact (loadEach_straight _ hs ha).bind fun _ w₁ h₁ => h₁

theorem takeRegisters_straight (a n : Nat) :
    Ensures False (takeRegisters n) w fun r w' => w.Straight a w' ∧ r = w.used ∧
      w.used + n ≤ w.draft.registers.limit := by
  rw [takeRegisters, ensures_view_bind, Registers.takeRun]
  by_cases hfits : Word.fits (w.draft.registers.used + n)
  · rw [if_pos hfits]
    dsimp only
    unfold Registers.takeRun?
    split
    · next hroom =>
      refine ⟨Workspace.Writes.straight_nil (.nothing rfl ?_ (.refl _)) a, rfl, hroom⟩
      rfl
    · trivial
  · rw [if_neg hfits]
    exact ensures_misuse.mpr not_false

theorem loadAdjusted_straight (hs : ∀ s ∈ sources, s.Tidy) (n line : Nat) (ha : a ≤ w.used) :
    Ensures False (loadAdjusted n sources line) w fun _ w' => w.Straight a w' := by
  have hkept : ∀ s ∈ withoutTailNils sources, s.Tidy :=
    fun s h => hs s (mem_of_mem_withoutTailNils h)
  unfold loadAdjusted
  dsimp only
  split
  · exact (loadEach_straight _ hkept ha).mono fun _ _ h => h.1
  · next hmore =>
    split
    · refine (loadEach_straight _ hkept ha).bind fun _ w₁ h₁ => ?_
      refine (takeRegisters_straight a _).bind fun _ w₂ h₂ => ?_
      exact h₁.1.trans h₂.1
    · refine (loadEach_straight _ hkept ha).bind fun _ w₁ h₁ => ?_
      refine (takeRegisters_straight a _).bind fun r w₂ h₂ => ?_
      obtain ⟨hstraight, rfl, hroom⟩ := h₂
      rw [Emit.loadNil, before, if_pos (by omega), ensures_pure_bind]
      refine (plain_straight line _ rfl).mono fun _ w₃ h₃ => ?_
      refine (h₁.1.trans hstraight).trans (h₃.1.mono (by omega) (Or.inr ?_))
      rw [hstraight.limit]
      omega

/-! ## Names, fields and operators -/

theorem loadName_straight (x : String) (ha : a < w.used) :
    Ensures False (loadName x a) w fun _ w' => w.Straight a w' := by
  rw [loadName, ensures_currentLine_bind]
  refine (slotOf?_ensures x).bind fun r w₁ h => ?_
  obtain ⟨rfl, -⟩ := h
  cases r with
  | some r => exact (plain_straight _ _ rfl).mono fun _ _ h => h.1
  | none =>
    refine (upvalueOf?_writes x).bind fun u w₂ h => ?_
    have hlook : w₁.Straight a w₂ := h.1.straight_nil a
    cases u with
    | some u => exact (plain_straight _ _ rfl).mono fun _ _ h => hlook.trans h.1
    | none =>
      refine (globalsOperand_straight a).bind fun env w₃ h₃ => ?_
      rw [ensures_usedRegisters_bind]
      refine (operand_straight (.constant rfl) _ (a := a) (by omega)).bind fun key w₄ h₄ => ?_
      refine (freeRegistersTo_straight a _).bind fun _ w₅ h₅ => ?_
      refine (getField_straight _ _ _).mono fun _ w₆ h₆ => ?_
      exact hlook.trans (h₃.1.trans (h₄.1.trans (h₅.1.trans h₆)))

section

variable (hs : s.Tidy) (hl : left.Tidy) (hr : right.Tidy) (ha : a < w.used)

include hl hr ha in
theorem loadIndex_straight :
    Ensures False (loadIndex left right a) w fun _ w' => w.Straight a w' := by
  rw [loadIndex, ensures_currentLine_bind, ensures_usedRegisters_bind]
  refine (operand_straight hl _ (Nat.le_of_lt ha)).bind fun table w₁ h₁ => ?_
  refine (operand_straight hr _ (a := a) (by omega)).bind fun key w₂ h₂ => ?_
  refine (freeRegistersTo_straight a _).bind fun _ w₃ h₃ => ?_
  refine (getField_straight _ _ _).mono fun _ w₄ h₄ => ?_
  exact h₁.1.trans (h₂.1.trans (h₃.1.trans h₄))

include hs ha in
theorem loadUnary_straight (op : UnaryOp) :
    Ensures False (loadUnary op s a) w fun _ w' => w.Straight a w' := by
  rw [loadUnary, ensures_currentLine_bind, ensures_usedRegisters_bind]
  refine (operand_straight hs _ (Nat.le_of_lt ha)).bind fun b w₁ h₁ => ?_
  refine (plain_straight _ _ (by cases op <;> rfl)).bind fun _ w₂ h₂ => ?_
  refine (freeRegistersTo_straight a _).mono fun _ w₃ h₃ => ?_
  exact h₁.1.trans (h₂.1.trans h₃.1)

include hl hr ha in
theorem loadStrict_straight (op : BinaryOp) :
    Ensures False (loadStrict op left right a) w fun _ w' => w.Straight a w' := by
  rw [loadStrict, ensures_currentLine_bind, ensures_usedRegisters_bind]
  refine (operand_straight hl _ (Nat.le_of_lt ha)).bind fun b w₁ h₁ => ?_
  refine (operand_straight hr _ (a := a) (by omega)).bind fun c w₂ h₂ => ?_
  refine (binary_straight _ op _ _).bind fun _ w₃ h₃ => ?_
  refine (freeRegistersTo_straight a _).mono fun _ w₄ h₄ => ?_
  exact h₁.1.trans (h₂.1.trans (h₃.trans h₄.1))

include hl hr ha in
theorem loadShortCircuit_straight (keep : Nat) :
    Ensures False (loadShortCircuit keep left right a) w fun _ w' => w.Straight a w' := by
  rw [loadShortCircuit, ensures_currentLine_bind, ensures_usedRegisters_bind]
  refine (operand_straight hl _ (Nat.le_of_lt ha)).bind fun b w₁ h₁ => ?_
  refine (freeRegistersTo_straight a _).bind fun _ w₂ h₂ => ?_
  refine (plain_writes _ .testSet a b.field keep).bind fun _ w₃ h₃ => ?_
  refine (jump_writes _ 0 0).bind fun skip w₄ h₄ => ?_
  obtain ⟨hjump, hused₄, rfl⟩ := h₄
  have htest := Instruction.opcode?_abc .testSet a b.field keep
  have hpair : w₂.Straight a w₄ := (h₃.1.append hjump).straight ⟨⟨
    Instruction.worksFrom_of_first htest (Instruction.a_abc ..) (Nat.le_refl a) (Or.inl rfl),
    Instruction.proceeds_skip (by simp [Instruction.ways_eq htest])
      (Nat.lt_succ_self _)⟩,
    ⟨Instruction.worksFrom_of_silent (Instruction.opcode?_asbx ..) rfl a _,
      Instruction.proceeds_jump (by decide) (Int.le_refl 0)
        (by simp only [List.cons_append, List.nil_append, List.length_cons]; omega)⟩, trivial⟩
  have hcode : w₄.draft.code[w₃.draft.pc]? = some (.asbx .jmp 0 0) := hjump.code 0 _ rfl
  have hlt : w₃.draft.pc < w₄.draft.pc := (Array.getElem?_eq_some_iff.mp hcode).1
  refine (operand_straight hr _ (a := a) (by omega)).bind fun c w₅ h₅ => ?_
  refine (freeRegistersTo_straight a _).bind fun _ w₆ h₆ => ?_
  refine (plain_straight _ c.field rfl).bind fun _ w₇ h₇ => ?_
  have hright : w₄.Straight a w₇ := h₅.1.trans (h₆.1.trans h₇.1)
  have hall : w.Straight a w₇ := h₁.1.trans (h₂.1.trans (hpair.trans hright))
  rw [ensures_here_bind]
  refine (aimJump_ensures le_rfl ((hright.kept _ hlt).trans hcode)).mono fun _ w₈ h₈ => ?_
  obtain ⟨hreach, hoptions, -, hdraft⟩ := h₈
  have hto : w₃.draft.pc < w₇.draft.pc := Nat.lt_of_lt_of_le hlt hright.pc
  have hfrom : w.draft.pc ≤ w₃.draft.pc :=
    Nat.le_trans (Nat.le_trans h₁.1.pc h₂.1.pc) h₃.1.grows.pc
  refine hall.setCode hoptions hdraft hfrom ?_ (Instruction.proceeds_jump hreach ?_ ?_)
  · exact Instruction.worksFrom_of_silent (Instruction.opcode?_asbx ..) rfl a _
  · omega
  · omega

include hl hr ha in
theorem loadBinary_straight (op : BinaryOp) :
    Ensures False (loadBinary op left right a) w fun _ w' => w.Straight a w' := by
  unfold loadBinary
  split
  · exact loadShortCircuit_straight hl hr ha 0
  · exact loadShortCircuit_straight hl hr ha 1
  · exact loadStrict_straight hl hr ha _

end

theorem loadConcat_straight {operands : List Source} (hs : ∀ s ∈ operands, s.Tidy)
    (ha : a < w.used) :
    Ensures False (loadConcat operands a) w fun _ w' => w.Straight a w' := by
  rw [loadConcat, ensures_currentLine_bind, ensures_usedRegisters_bind]
  refine (loadEach_straight 1 hs (Nat.le_of_lt ha)).bind fun _ w₁ h₁ => ?_
  rw [ensures_usedRegisters_bind, before]
  split
  · rw [ensures_pure_bind]
    refine (freeRegistersTo_straight a _).bind fun _ w₂ h₂ => ?_
    exact (plain_straight _ _ rfl).mono fun _ w₃ h₃ => h₁.1.trans (h₂.1.trans h₃.1)
  · exact (ensures_misuse.mpr not_false).bind (P := fun _ _ => False) fun _ _ h => h.elim

/-! ## Table constructors -/

/-- The sources of a field are tidy. -/
def FieldSource.Tidy : FieldSource → Prop
  | .item value => value.Tidy
  | .entry key value => key.Tidy ∧ value.Tidy

/-- The table stays in use below the items that wait. -/
theorem storeFields_straight (line total : Nat) (hs : ∀ f ∈ fields, f.Tidy) :
    ∀ ⦃done : Nat⦄ ⦃w : Workspace⦄, done + (fields.filter (·.isItem)).length = total →
      a + waiting total done < w.used →
      Ensures False (storeFields line a total fields done) w fun _ w' => w.Straight a w' := by
  induction fields with
  | nil => exact fun _ w _ _ => .refl w a
  | cons f rest ih =>
    have hrest := ih fun g hg => hs g (List.mem_cons_of_mem _ hg)
    intro done w htotal hused
    cases f with
    | entry key value =>
      obtain ⟨hkey, hvalue⟩ : key.Tidy ∧ value.Tidy := hs _ List.mem_cons_self
      rw [storeFields, ensures_usedRegisters_bind]
      refine (operand_straight hkey _ (a := a) (by omega)).bind fun b w₁ h₁ => ?_
      refine (operand_straight hvalue _ (a := a) (by omega)).bind fun c w₂ h₂ => ?_
      refine (freeRegistersTo_straight a _).bind fun _ w₃ h₃ => ?_
      refine (plain_straight line _ rfl).bind fun _ w₄ h₄ => ?_
      refine (hrest htotal (by omega)).mono fun _ w₅ h₅ => ?_
      exact h₁.1.trans (h₂.1.trans (h₃.1.trans (h₄.1.trans h₅)))
    | item value =>
      have hvalue : value.Tidy := hs _ List.mem_cons_self
      have hnext : done + 1 + (rest.filter (·.isItem)).length = total := by
        have hcons : ((FieldSource.item value :: rest).filter (·.isItem)).length =
            (rest.filter (·.isItem)).length + 1 := rfl
        omega
      have hwait : waiting total done = done % batchSize := if_neg (by omega)
      have hn : (if (done + 1) % batchSize = 0 then batchSize else (done + 1) % batchSize) =
          done % batchSize + 1 := batchOf_succ done
      rw [storeFields]
      refine takeRegister_writes.bind fun r w₁ h => ?_
      obtain ⟨hwrites, rfl, hused₁, hroom⟩ := h
      refine (ensures_run (value.load w.used _) w₁).bind fun _ w₂ hload => ?_
      obtain ⟨h₂, hused₂⟩ := hvalue.fresh hwrites hused₁ hroom hload (a := a) (by omega)
      dsimp only
      rw [hn]
      split
      · next hfull =>
        have hnone : waiting total (done + 1) = 0 := waiting_of_full hfull
        refine (freeRegisters_straight a _).bind fun _ w₃ h₃ => ?_
        refine (plain_straight line _ rfl).bind fun _ w₄ h₄ => ?_
        refine (hrest hnext (by omega)).mono fun _ w₅ h₅ => ?_
        exact h₂.trans (h₃.1.trans (h₄.1.trans h₅))
      · next hfull =>
        have hmore : waiting total (done + 1) = done % batchSize + 1 := waiting_of_part hfull
        exact (hrest hnext (by omega)).mono fun _ w₃ h₃ => h₂.trans h₃

theorem sizeField_ensures (n : Nat) : Ensures False (sizeField n) w fun _ w' => w' = w := by
  unfold sizeField
  split
  · rfl
  · exact ensures_misuse.mpr not_false

theorem newTable_writes (line items entries : Nat) :
    Ensures False (Emit.newTable line a items entries) w fun _ w' =>
      (∃ b c, w.Writes [.abc .newTable a b c] w') ∧ w.Straight a w' ∧ w'.used = w.used := by
  refine (sizeField_ensures items).bind fun b w₁ h => ?_
  subst h
  refine (sizeField_ensures entries).bind fun c w₂ h => ?_
  subst h
  refine ((plain_writes line .newTable a b c).and (plain_straight line b rfl)).mono fun _ _ h => ?_
  exact ⟨⟨b, c, h.1.1⟩, h.2⟩

theorem loadTable_straight (hs : ∀ f ∈ fields, f.Tidy) (ha : a < w.used) :
    Ensures False (loadTable fields a) w fun _ w' => w.Straight a w' := by
  rw [loadTable, ensures_currentLine_bind]
  refine (newTable_writes _ _ _).bind fun _ w₁ h₁ => ?_
  obtain ⟨-, hmade, hused⟩ := h₁
  have hnone : waiting (fields.filter (·.isItem)).length 0 = 0 := by simp [waiting]
  refine (storeFields_straight _ _ hs (Nat.zero_add _) (by omega)).mono fun _ w₂ h₂ => ?_
  exact hmade.trans h₂

/-! ## Calls and functions -/

theorem countField_ensures (n : Int) :
    Ensures False (countField n) w fun field w' =>
      w' = w ∧ n + 1 < 0x80000000 ∧ field = ((n + 1) % 0x100000000).toNat := by
  unfold countField
  split
  · next h => exact ⟨rfl, h, rfl⟩
  · exact ensures_misuse.mpr not_false

theorem loadMethod_straight (line : Nat) (method : String) (ha : a < w.used) :
    Ensures False (loadMethod line a method) w fun _ w' => w.Straight a w' := by
  refine takeRegister_writes.bind fun _ w₁ h₁ => ?_
  refine (operand_straight (.constant rfl) _ (a := a) (by omega)).bind fun key w₂ h₂ => ?_
  refine (plain_straight line _ rfl).bind fun _ w₃ h₃ => ?_
  have hall : w.Straight a w₃ := (h₁.1.straight_nil a).trans (h₂.1.trans h₃.1)
  cases key with
  | register r => exact (freeRegisters_straight a 1).mono fun _ w₄ h₄ => hall.trans h₄.1
  | constant k => exact hall
  | upvalue u => exact hall

theorem layOutCall_straight {callee : Source} {args : List Source} (hc : callee.Tidy)
    (hs : ∀ s ∈ args, s.Tidy) (method : Option String) (line : Nat) (ha : a < w.used) :
    Ensures False (layOutCall callee method args line a) w fun _ w' => w.Straight a w' := by
  rw [layOutCall, ensures_currentLine_bind]
  refine (setLine_straight a line).bind fun _ w₁ h₁ => ?_
  refine (hc.load 1 (by omega)).bind fun _ w₂ h₂ => ?_
  have hreceiver : Ensures False (loadReceiver line a method) w₂ fun _ w' =>
      w₂.Straight a w' ∧ w₂.used ≤ w'.used := by
    cases method with
    | none => exact ⟨.refl _ a, le_rfl⟩
    | some m =>
      refine ((loadMethod_straight line m (by omega)).and
        (loadMethod_vets line a m w₂).ensures).mono fun _ w₃ h₃ => ⟨h₃.1, ?_⟩
      omega
  refine hreceiver.bind fun _ w₃ h₃ => ?_
  refine (loadAll_straight hs (a := a) (by omega)).bind fun n w₄ h₄ => ?_
  refine (freeRegisters_straight a _).bind fun _ w₅ h₅ => ?_
  have hfree : Ensures False (freeReceiver method) w₅ fun _ w' => w₅.Straight a w' := by
    cases method with
    | none => exact .refl _ a
    | some m => exact (freeRegisters_straight a 1).mono fun _ _ h => h.1
  refine hfree.bind fun _ w₆ h₆ => ?_
  refine (setLine_straight a _).bind fun _ w₇ h₇ => ?_
  rw [ensures_pure]
  exact h₁.1.trans (h₂.1.trans (h₃.1.trans (h₄.1.trans (h₅.1.trans (h₆.trans h₇.1)))))

theorem call_straight (line : Nat) (args results : Int) :
    Ensures False (Emit.call line a args results) w fun _ w' => w.Straight a w' := by
  refine (countField_ensures args).bind fun b w₁ h => ?_
  obtain ⟨rfl, -⟩ := h
  refine (countField_ensures results).bind fun c w₂ h => ?_
  obtain ⟨rfl, -⟩ := h
  exact (plain_straight line _ rfl).mono fun _ _ h => h.1

/-- The function around only has its locals marked. -/
theorem loadFunction_straight {write : LowerM Unit} (h : Lasts Workspace.WorksOn Unit write)
    (he : Evolving Unit write) (lastLine : Nat) :
    Ensures False (loadFunction lastLine write a) w fun _ w' => w.Straight a w' := by
  have hnested : Ensures False (nested write) w fun _ w' => w.Straight a w' := by
    have hlasts := h w.enter
    unfold LastsFrom at hlasts
    unfold Ensures nested
    cases hrun : write w.enter with
    | ok x inner =>
      rw [hrun] at hlasts
      have hmarked : w.draft.Marked inner.leave.draft := hlasts.marked
      have hoptions : inner.leave.options = w.options :=
        ((he w.enter).of_ok hrun).leave.options
      exact .of_marked hoptions hmarked a
    | error e inner => cases e <;> simp
  refine hnested.bind fun p w₁ h₁ => ?_
  rw [ensures_view_bind, finishFunction, bind_assoc, ensures_options_bind, bind_assoc,
    ensures_record_bind, ensures_pure_bind, ensures_update_bind]
  refine (abx_straight lastLine _ fun _ _ => rfl).bind fun _ w₂ h₂ => ?_
  exact h₁.trans ((Workspace.Straight.of_nested _ _ a).trans h₂.1)

theorem FunctionBody.lower_straight : ∀ f : FunctionBody,
    Ensures False (f.lower a) w fun _ w' => w.Straight a w'
  | ⟨params, isVararg, body, line, lastLine⟩ => by
      rw [FunctionBody.lower]
      have hlasts := worksOn_lasting.stepwise.writeFunction params isVararg line lastLine
        (worksOn_lasting.stepwise.block body)
      have hevolves := evolving_stepwise.writeFunction params isVararg line lastLine
        (evolving_stepwise.block body)
      exact loadFunction_straight hlasts hevolves lastLine

/-! ## The recursion -/

mutual

theorem Expr.lower_tidy : ∀ e : Expr, (Source.mk e e.lower).Tidy
  | .nil => by
      refine ⟨Expr.lower_vetted _, fun w a want ha => ?_⟩
      simp only [Expr.lower]
      rw [ensures_currentLine_bind, Emit.loadNil, before]
      split
      · exact (plain_straight _ _ rfl).mono fun _ _ h => h.1
      · exact (ensures_misuse.mpr not_false).bind (P := fun _ _ => False) fun _ _ h => h.elim
  | .boolean b => by
      refine ⟨Expr.lower_vetted _, fun w a want ha => ?_⟩
      simp only [Expr.lower]
      exact (plain_straight w.draft.line _ rfl).mono fun _ _ h => h.1
  | .vararg => by
      refine ⟨Expr.lower_vetted _, fun w a want ha => ?_⟩
      simp only [Expr.lower]
      rw [ensures_currentLine_bind]
      refine (countField_ensures want).bind fun b w₁ h => ?_
      obtain ⟨rfl, -⟩ := h
      exact (plain_straight _ _ rfl).mono fun _ _ h => h.1
  | .integer n => by
      refine ⟨Expr.lower_vetted _, fun w a want ha => ?_⟩
      simp only [Expr.lower]
      exact loadConstant_straight w.draft.line _
  | .float x => by
      refine ⟨Expr.lower_vetted _, fun w a want ha => ?_⟩
      simp only [Expr.lower]
      exact loadConstant_straight w.draft.line _
  | .string s => by
      refine ⟨Expr.lower_vetted _, fun w a want ha => ?_⟩
      simp only [Expr.lower]
      exact loadConstant_straight w.draft.line _
  | .name x => by
      refine ⟨Expr.lower_vetted _, fun w a want ha => ?_⟩
      simp only [Expr.lower]
      exact loadName_straight x ha
  | .paren inner => by
      refine ⟨Expr.lower_vetted _, fun w a want ha => ?_⟩
      simp only [Expr.lower]
      exact (Expr.lower_tidy inner).straight 1 ha
  | .call c => by
      refine ⟨Expr.lower_vetted _, fun w a want ha => ?_⟩
      simp only [Expr.lower, Call.lower_eq]
      refine (Call.prepare_straight c ha).bind fun n w₁ h₁ => ?_
      exact (call_straight _ _ _).mono fun _ w₂ h₂ => h₁.trans h₂
  | .function f => by
      refine ⟨Expr.lower_vetted _, fun w a want ha => ?_⟩
      simp only [Expr.lower]
      exact f.lower_straight
  | .table fields => by
      refine ⟨Expr.lower_vetted _, fun w a want ha => ?_⟩
      simp only [Expr.lower]
      exact loadTable_straight (Field.sources_tidy fields) ha
  | .index table key => by
      refine ⟨Expr.lower_vetted _, fun w a want ha => ?_⟩
      simp only [Expr.lower]
      exact loadIndex_straight (Expr.lower_tidy table) (Expr.lower_tidy key) ha
  | .unary op e => by
      refine ⟨Expr.lower_vetted _, fun w a want ha => ?_⟩
      simp only [Expr.lower]
      exact loadUnary_straight (Expr.lower_tidy e) ha op
  | .binary op left right => by
      refine ⟨Expr.lower_vetted _, fun w a want ha => ?_⟩
      simp only [Expr.lower]
      exact loadBinary_straight (Expr.lower_tidy left) (Expr.lower_tidy right) ha op
  | .concat operands => by
      refine ⟨Expr.lower_vetted _, fun w a want ha => ?_⟩
      simp only [Expr.lower]
      exact loadConcat_straight (Expr.sources_tidy operands) ha

theorem Expr.sources_tidy : ∀ (es : List Expr), ∀ s ∈ Expr.sources es, s.Tidy
  | [] => by simp [Expr.sources]
  | e :: rest => by
      simp only [Expr.sources, List.forall_mem_cons]
      exact ⟨Expr.lower_tidy e, Expr.sources_tidy rest⟩

theorem Field.sources_tidy : ∀ (fields : List Field), ∀ f ∈ Field.sources fields, f.Tidy
  | [] => by simp [Field.sources]
  | .item value :: rest => by
      simp only [Field.sources, List.forall_mem_cons]
      exact ⟨Expr.lower_tidy value, Field.sources_tidy rest⟩
  | .entry key value :: rest => by
      simp only [Field.sources, List.forall_mem_cons]
      exact ⟨⟨Expr.lower_tidy key, Expr.lower_tidy value⟩, Field.sources_tidy rest⟩

theorem Call.prepare_straight : ∀ (c : Call) {w : Workspace} {a : Nat}, a < w.used →
    Ensures False (c.prepare a) w fun _ w' => w.Straight a w'
  | ⟨callee, method, args, line⟩, w, a, ha => by
      simp only [Call.prepare]
      exact layOutCall_straight (Expr.lower_tidy callee) (Expr.sources_tidy args) method line ha

end

end LuaLowering
