import LuaLowering.Proofs.Layout.Expression
import LuaLowering.Proofs.Frame.Adjustment

/-!
# Values in registers of their own

The arguments of a call and the items of a table are loaded into registers one after the
other. `Workspace.LoadsAt` says of one of them which run of the builder loaded it, and that
the code of this run is still there and leaves all lower registers alone. The states between
the runs are named, so that each run begins where the one before it ended.

For an operand to be what an instruction names, registers and constants have to fit its
fields. `Workspace.InFields` is what that takes; every state that can come about under such limits
has it, and expressions keep it.
-/

namespace LuaLowering

open LowerM

variable {w w₁ w' u v : Workspace} {s : Source} {a r : Nat} {want : Int}

/-! ## Fields that are wide enough -/

namespace Workspace

/-- Registers and the constants that an operand may name fit the fields of instructions. -/
structure InFields (w : Workspace) : Prop where
  limit : w.draft.registers.limit ≤ 0xff
  constants : w.options.constantLimit ≤ 0xff
  slots : ∀ x r, w.slot? x = some r → r < 0x100

theorem InFields.straight (h : w.InFields) (hs : w.Straight a w') : w'.InFields where
  limit := hs.limit ▸ h.limit
  constants := hs.options ▸ h.constants
  slots := fun x r hr => h.slots x r (hs.names x ▸ hr)

theorem slot?_lt (h : w.draft.SlotsFit) {x : String} (hr : w.slot? x = some r) :
    r < w.draft.registers.limit := by
  obtain ⟨i, -, hi⟩ := Option.bind_eq_some_iff.mp hr
  obtain ⟨v, hv, rfl⟩ := Option.map_eq_some_iff.mp hi
  exact h v (Array.mem_of_getElem? hv)

end Workspace

theorem Reachable.inFields {o : Options} (h : Reachable o w) (hregisters : o.registerLimit ≤ 0xff)
    (hconstants : o.constantLimit ≤ 0xff) : w.InFields := by
  have hlimit := h.sound.limit _ List.mem_cons_self
  refine ⟨by omega, ?_, fun x r hr => ?_⟩
  · rw [h.sound.options]
    exact hconstants
  · have hlt := Workspace.slot?_lt (h.slotsFit _ List.mem_cons_self) hr
    omega

theorem Reachable.used_le {o : Options} (h : Reachable o w) : w.used ≤ o.registerLimit := by
  have hsound := h.sound.drafts _ List.mem_cons_self
  have hlimit := h.sound.limit _ List.mem_cons_self
  exact Nat.le_trans (Nat.le_trans hsound.used w.draft.registers.peak_le) (Nat.le_of_eq hlimit)

/-- What is decoded at a position. -/
def Workspace.HasAt (w : Workspace) (pc : Nat) (op : Opcode) (a b c : Nat) : Prop :=
  ∃ i, w.draft.code[pc]? = some i ∧ i.opcode? = some op ∧ i.a = a ∧ i.b = b ∧ i.c = c

/-- An instruction decodes to its operands, as far as they fit. -/
theorem Workspace.Writes.hasAt {op : Opcode} {a b c : Nat} (h : w.Writes [.abc op a b c] w₁)
    (hlater : w₁.Appends w') : w'.HasAt w.draft.pc op (a % 0x100) (b % 0x200) (c % 0x200) := by
  have hpc : w₁.draft.pc = w.draft.pc + 1 := h.pc
  have hcode : w₁.draft.code[w.draft.pc]? = some (.abc op a b c) := h.code 0 _ rfl
  exact ⟨_, (hlater.kept _ (by omega)).trans hcode, Instruction.opcode?_abc ..,
    Instruction.a_abc .., Instruction.b_abc .., Instruction.c_abc ..⟩

/-! ## One value -/

/-- A value is loaded into a register by code that was written between two states and is
still there. It leaves all lower registers alone, and what it does but steer control has a
first operand that is no lower. -/
structure Workspace.LoadsAt (w' : Workspace) (s : Source) (r : Nat) (want : Int)
    (u v : Workspace) : Prop where
  run : s.load r want u = .ok () v
  used : u.used = r + 1
  code : ∀ pc, u.draft.pc ≤ pc → pc < v.draft.pc → w'.draft.code[pc]? = v.draft.code[pc]?
  region : w'.site.Region r u.draft.pc v.draft.pc
  first : ∀ pc op x b c, u.draft.pc ≤ pc → pc < v.draft.pc → w'.HasAt pc op x b c →
    op.isSilent = true ∨ r ≤ x

theorem Source.Tidy.loadsAt (hs : s.Tidy) (hrun : s.load r want u = .ok () v)
    (hused : u.used = r + 1) (hlimit : u.draft.registers.limit ≤ 0xff) (hr : r < 0x100)
    (hlater : v.Appends w') : w'.LoadsAt s r want u v := by
  have hstraight : u.Straight r v := ((hs.load want (by omega)).of_ok hrun).1
  have hcode : ∀ pc, u.draft.pc ≤ pc → pc < v.draft.pc →
      w'.draft.code[pc]? = v.draft.code[pc]? := fun pc _ hlt => hlater.kept pc hlt
  refine ⟨hrun, hused, hcode, hstraight.region (by omega) hr hcode, ?_⟩
  rintro pc op x b c hge hlt ⟨i, hi, hop, hx, -⟩
  obtain ⟨j, hj, hworks, -⟩ := hstraight.code pc hge hlt
  obtain rfl := Option.some.inj (hj.symm.trans ((hcode pc hge hlt).symm.trans hi))
  rcases hworks.le_first (by omega) hr with ⟨op', hop', hsilent⟩ | hle
  · obtain rfl := Option.some.inj (hop'.symm.trans hop)
    exact Or.inl hsilent
  · exact Or.inr (hx ▸ hle)

/-- A register is taken and a value loaded into it. -/
def Workspace.LoadsNext (w' : Workspace) (s : Source) (r : Nat) (want : Int)
    (w w₁ : Workspace) : Prop :=
  ∃ u, takeRegister w = .ok r u ∧ w'.LoadsAt s r want u w₁

theorem Workspace.LoadsNext.region (h : w'.LoadsNext s r want w w₁) :
    w'.site.Region r w.draft.pc w₁.draft.pc := by
  obtain ⟨u, htake, hload⟩ := h
  have hpc : u.draft.pc = w.draft.pc := (takeRegister_writes.of_ok htake).1.pc
  rw [← hpc]
  exact hload.region

/-! ## Operands -/

/-- A run of the builder supplied an operand, which a field names: a constant or the register of
a local, for which there is no code, or else the first register that was free. -/
inductive Workspace.OperandAt (w' : Workspace) (s : Source) (w : Workspace) :
    Nat → Workspace → Prop
  | constant {k c : Constant} {i : Nat} {w₁ : Workspace}
      (hrun : operand s .registerOrConstant w = .ok (.constant i) w₁)
      (hk : s.exp.literal? = some k) (hi : i < 0x100) (hc : w'.draft.constants[i]? = some c)
      (hck : c = k ∨ c.OppositeZeros k) (hpc : w₁.draft.pc = w.draft.pc)
      (hused : w₁.used = w.used) : OperandAt w' s w (i + 0x100) w₁
  | name {x : String} {r : Nat} {w₁ : Workspace}
      (hrun : operand s .registerOrConstant w = .ok (.register r) w₁) (hx : s.exp = .name x)
      (hr : w'.slot? x = some r) (hlt : r < 0x100) (hpc : w₁.draft.pc = w.draft.pc)
      (hused : w₁.used = w.used) : OperandAt w' s w r w₁
  | value {u w₁ : Workspace}
      (hrun : operand s .registerOrConstant w = .ok (.register w.used) w₁)
      (hpc : u.draft.pc = w.draft.pc) (hload : w'.LoadsAt s w.used 1 u w₁)
      (hused : w₁.used = w.used + 1) : OperandAt w' s w w.used w₁

namespace Workspace.OperandAt

variable {field : Nat}

theorem used_le (h : w'.OperandAt s w field w₁) : w.used ≤ w₁.used := by
  cases h <;> omega

theorem region (h : w'.OperandAt s w field w₁) :
    w'.site.Region w.used w.draft.pc w₁.draft.pc := by
  cases h with
  | constant _ _ _ _ _ hpc => exact hpc ▸ .refl _ _
  | name _ _ _ _ hpc => exact hpc ▸ .refl _ _
  | value _ hpc hload => exact hpc ▸ hload.region

end Workspace.OperandAt

theorem Workspace.Finds.operandAt {o : Operand} (h : w.Finds s .registerOrConstant w₁ o)
    (hrun : operand s .registerOrConstant w = .ok o w₁) (hs : s.Tidy) (hw : w.InFields)
    (hlater : w₁.Straight a w') : w'.OperandAt s w (o.field % 0x200) w₁ := by
  have hlimit := hw.limit
  cases h with
  | @constant k c i _ hk hi hc hck hwrites hused =>
    have hlt : i < 0x100 := Nat.lt_succ_of_le (Nat.le_trans hi hw.constants)
    rw [Operand.field, Instruction.constantField_of_lt hlt, Nat.mod_eq_of_lt (by omega)]
    exact .constant hrun hk hlt (hlater.constants i c hc) hck hwrites.pc hused
  | @register x r hx hr hwrites hused =>
    have hlt := hw.slots x r hr
    have hslot : w'.slot? x = some r := by
      rw [hlater.names, hwrites.grows.slot?]
      exact hr
    rw [Operand.field, Nat.mod_eq_of_lt (by omega)]
    exact .name hrun hx hslot hlt hwrites.pc hused
  | upvalue _ hyes => cases hyes
  | @fresh u _ hwrites hused hroom hload =>
    have hlimit' : u.draft.registers.limit = w.draft.registers.limit := hwrites.grows.limit
    obtain ⟨-, hused₁⟩ := hs.fresh hwrites hused hroom hload le_rfl
    rw [Operand.field, Nat.mod_eq_of_lt (by omega)]
    have hloadsAt := hs.loadsAt hload hused (by omega) (by omega) hlater.toAppends
    exact .value hrun hwrites.pc hloadsAt hused₁

/-! ## Values in a row -/

/-- A state in front of others. -/
def Workspace.before (w : Workspace) (states : Nat → Workspace) : Nat → Workspace
  | 0 => w
  | k + 1 => states k

/-- Expressions are loaded into the registers from `first` on, one after the other: one value
of each, and `want` of the last. The expression `k` is loaded between the states `k` and
`k + 1`. -/
def Workspace.LoadsRow (w' : Workspace) (es : List Expr) (first : Nat) (want : Int)
    (states : Nat → Workspace) : Prop :=
  ∀ (k : Nat) (e : Expr), es[k]? = some e → w'.LoadsNext e.source (first + k)
    (if k + 1 = es.length then want else 1) (states k) (states (k + 1))

/-- The first expression of a row is loaded in front of the others. -/
theorem Workspace.LoadsNext.row {e : Expr} {rest : List Expr} {first : Nat}
    {states : Nat → Workspace}
    (h : w'.LoadsNext e.source first (if rest = [] then want else 1) w (states 0))
    (hrest : w'.LoadsRow rest (first + 1) want states) :
    w'.LoadsRow (e :: rest) first want (w.before states) := by
  intro k t ht
  cases k with
  | zero =>
    obtain rfl : e = t := by simpa using ht
    cases rest <;> simpa [Workspace.before] using h
  | succ k =>
    have hload := hrest k t (by simpa using ht)
    rw [Nat.add_right_comm first 1 k, Nat.add_assoc] at hload
    simpa [Workspace.before] using hload

/-- One value in the next register. -/
theorem takeAndLoad_loadsNext (hs : s.Tidy) (hlimit : w.draft.registers.limit ≤ 0xff)
    (want : Int) :
    Ensures False (do let r ← takeRegister; s.load r want) w fun _ w₁ =>
      w.Straight w.used w₁ ∧ w₁.used = w.used + 1 ∧ w₁.used ≤ w.draft.registers.limit ∧
      ∀ w', w₁.Appends w' → w'.LoadsNext s w.used want w w₁ := by
  refine (takeRegister_writes.and (ensures_run _ w)).bind fun r u h => ?_
  obtain ⟨⟨hwrites, rfl, hused, hroom⟩, htake⟩ := h
  have hlimit' : u.draft.registers.limit = w.draft.registers.limit := hwrites.grows.limit
  refine (ensures_run (s.load w.used want) u).mono fun _ w₁ hload => ?_
  obtain ⟨hstraight, hused₁⟩ := hs.fresh hwrites hused hroom hload le_rfl
  refine ⟨hstraight, hused₁, by omega, fun w' hlater => ⟨u, htake, ?_⟩⟩
  exact hs.loadsAt hload hused (by omega) (by omega) hlater

theorem loadEach_row (want : Int) (es : List Expr) :
    ∀ w : Workspace, w.draft.registers.limit ≤ 0xff →
      Ensures False (loadEach want (Expr.sources es)) w fun _ w₁ =>
        w.Appends w₁ ∧ (es ≠ [] → w.used + es.length ≤ w.draft.registers.limit) ∧
        ∀ w', w₁.Appends w' → ∃ states : Nat → Workspace, states 0 = w ∧
          states es.length = w₁ ∧ w'.LoadsRow es w.used want states := by
  induction es with
  | nil =>
    intro w _
    rw [Expr.sources]
    exact ⟨.refl w, fun hne => absurd rfl hne, fun w' _ => ⟨fun _ => w, rfl, rfl, nofun⟩⟩
  | cons e rest ih =>
    intro w hlimit
    have hhead := takeAndLoad_loadsNext (s := e.source) (Expr.lower_tidy e) hlimit
    rw [Expr.sources]
    cases rest with
    | nil =>
      rw [Expr.sources]
      refine (hhead want).mono fun _ w₁ h₁ => ?_
      obtain ⟨hstraight, hused, hroom, hloads⟩ := h₁
      refine ⟨hstraight.toAppends, fun _ => by simpa [hused] using hroom, fun w' hlater => ?_⟩
      have hnone : w'.LoadsRow [] (w.used + 1) want fun _ => w₁ := nofun
      exact ⟨_, rfl, rfl, Workspace.LoadsNext.row (by simpa using hloads w' hlater) hnone⟩
    | cons e' others =>
      rw [loadEach, ← bind_assoc]
      · refine (hhead 1).bind fun _ w₁ h₁ => ?_
        obtain ⟨hstraight, hused, hroom, hloads⟩ := h₁
        have hlimit₁ := hstraight.limit
        refine (ih w₁ (by omega)).mono fun _ w₂ h₂ => ?_
        obtain ⟨happends, hroom₂, hrow⟩ := h₂
        have hroom₂' := hroom₂ (List.cons_ne_nil _ _)
        refine ⟨hstraight.toAppends.trans happends, fun _ => ?_, fun w' hlater => ?_⟩
        · simp only [List.length_cons] at hroom₂' ⊢
          omega
        · have hload := hloads w' (happends.trans hlater)
          obtain ⟨states, rfl, hlast, hrow⟩ := hrow w' hlater
          rw [hused] at hrow
          exact ⟨_, rfl, hlast, Workspace.LoadsNext.row (by simpa using hload) hrow⟩
      · rw [Expr.sources]
        exact fun h => by cases h

end LuaLowering
