import LuaLowering.Proofs.Patching.Moves
import LuaLowering.Proofs.Pool
import LuaLowering.Proofs.Evaluation.Names

/-!
# What writing an expression does to the builder

While a simple expression is written, code and constants are added and outer variables
may come to be known by an index; nothing else changes. `Workspace.Grows` says so, from
whatever state the builder is in. `Workspace.Writes` adds which instructions were written,
and each step of the builder gets its contract in these terms.
-/

namespace LuaLowering

open LowerM

/-! ## Growing -/

namespace Workspace

/-- Instructions, constants and outer variables were added, and nothing else changed but
the registers in use. -/
structure Grows (w w' : Workspace) : Prop where
  options : w'.options = w.options
  visible : w'.draft.visible = w.draft.visible
  locals : w'.draft.locals = w.draft.locals
  limit : w'.draft.registers.limit = w.draft.registers.limit
  constants : Keeps w.draft.constants w'.draft.constants
  upvalues : Keeps w.draft.upvalues w'.draft.upvalues
  count : w.draft.upvalues.size ≤ maxUpvalues → w'.draft.upvalues.size ≤ maxUpvalues
  knows : ∀ x, w'.knows x = w.knows x
  pc : w.draft.pc ≤ w'.draft.pc
  code : ∀ i < w.draft.pc, w'.draft.code[i]? = w.draft.code[i]?

variable {w w₁ w₂ : Workspace}

theorem Grows.refl (w : Workspace) : w.Grows w :=
  ⟨rfl, rfl, rfl, rfl, .refl _, .refl _, id, fun _ => rfl, Nat.le_refl _, fun _ _ => rfl⟩

theorem Grows.trans (h₁ : w.Grows w₁) (h₂ : w₁.Grows w₂) : w.Grows w₂ where
  options := h₂.options.trans h₁.options
  visible := h₂.visible.trans h₁.visible
  locals := h₂.locals.trans h₁.locals
  limit := h₂.limit.trans h₁.limit
  constants := h₁.constants.trans h₂.constants
  upvalues := h₁.upvalues.trans h₂.upvalues
  count := h₂.count ∘ h₁.count
  knows := fun x => (h₂.knows x).trans (h₁.knows x)
  pc := Nat.le_trans h₁.pc h₂.pc
  code := fun i hi => (h₂.code i (Nat.lt_of_lt_of_le hi h₁.pc)).trans (h₁.code i hi)

theorem Grows.slot? (h : w.Grows w₁) (x : String) : w₁.slot? x = w.slot? x := by
  unfold Workspace.slot?
  rw [h.visible, h.locals]

theorem Grows.environment {V H : Type} (h : w.Grows w₁) (regs : Nat → V) (outer : String → V)
    (heap : H) : w₁.environment regs outer heap = w.environment regs outer heap := by
  unfold Workspace.environment
  congr 1
  · funext x
    rw [h.slot? x]
  · funext x
    rw [h.knows x]

/-- Instructions were written at the end of the code. -/
structure Writes (w : Workspace) (is : List Instruction) (w' : Workspace) : Prop where
  grows : w.Grows w'
  pc : w'.draft.pc = w.draft.pc + is.length
  code : ∀ k i, is[k]? = some i → w'.draft.code[w.draft.pc + k]? = some i

theorem Writes.refl (w : Workspace) : w.Writes [] w := ⟨.refl w, rfl, nofun⟩

theorem Writes.append {is is' : List Instruction} (h₁ : w.Writes is w₁) (h₂ : w₁.Writes is' w₂) :
    w.Writes (is ++ is') w₂ := by
  refine ⟨h₁.grows.trans h₂.grows, ?_, fun k i hk => ?_⟩
  · rw [h₂.pc, h₁.pc, List.length_append, Nat.add_assoc]
  · rw [List.getElem?_append] at hk
    split at hk
    · next hlt =>
      rw [h₂.grows.code _ (by rw [h₁.pc]; omega)]
      exact h₁.code k i hk
    · next hge =>
      have hcode := h₂.code _ i hk
      rw [h₁.pc] at hcode
      rwa [show w.draft.pc + k = w.draft.pc + is.length + (k - is.length) by omega]

/-- A change that writes nothing. -/
theorem Writes.nothing {d : Draft} {constants : Array Constant} {registers : Registers}
    (hd : d = { w.draft with constants, registers })
    (hlimit : registers.limit = w.draft.registers.limit)
    (hconstants : Keeps w.draft.constants constants) : w.Writes [] { w with draft := d } := by
  subst hd
  refine ⟨⟨rfl, rfl, rfl, hlimit, hconstants, .refl _, id, fun x => ?_, Nat.le_refl _,
    fun _ _ => rfl⟩, rfl, nofun⟩
  exact Draft.knows_congr (by rfl) x w.enclosing

end Workspace

variable {w : Workspace}

/-! ## The steps of the builder -/

theorem emit_writes (line : Nat) (i : Instruction) :
    Ensures False (emit line i) w fun _ w' => w.Writes [i] w' ∧ w'.used = w.used := by
  have hsize : (w.draft.code.push i).size = w.draft.code.size + 1 := Array.size_push _
  refine ⟨⟨⟨rfl, rfl, rfl, rfl, .refl _, .refl _, id, fun x => ?_, ?_, fun j hj => ?_⟩, hsize,
    fun k j hk => ?_⟩, rfl⟩
  · exact Draft.knows_congr (by rfl) x w.enclosing
  · exact Nat.le_of_lt (Nat.lt_of_lt_of_eq (Nat.lt_succ_self _) hsize.symm)
  · exact (Array.getElem?_push_lt hj).trans (Array.getElem?_eq_getElem hj).symm
  · cases k with
    | zero =>
      cases hk
      exact Array.getElem?_push_size
    | succ k => cases hk

theorem plain_writes (line : Nat) (op : Opcode) (a b c : Nat) :
    Ensures False (Emit.plain line op a b c) w fun _ w' =>
      w.Writes [.abc op a b c] w' ∧ w'.used = w.used :=
  (emit_writes line _).bind fun _ _ h => h

theorem asbx_writes (line : Nat) (op : Opcode) (a : Nat) (offset : Int) :
    Ensures False (Emit.asbx line op a offset) w fun pc w' =>
      w.Writes [.asbx op a offset] w' ∧ w'.used = w.used ∧ pc = w.draft.pc := by
  unfold Emit.asbx
  split
  · have hpc : Ensures False (emit line (.asbx op a offset)) w fun pc _ => pc = w.draft.pc := rfl
    exact ((emit_writes line _).and hpc).mono fun _ _ h => ⟨h.1.1, h.1.2, h.2⟩
  · exact ensures_misuse.mpr not_false

theorem jump_writes (line close : Nat) (offset : Int) :
    Ensures False (Emit.jump line close offset) w fun pc w' =>
      w.Writes [.asbx .jmp close offset] w' ∧ w'.used = w.used ∧ pc = w.draft.pc :=
  asbx_writes line .jmp close offset

theorem takeRegister_writes :
    Ensures False takeRegister w fun r w' => w.Writes [] w' ∧ r = w.used ∧ w'.used = w.used + 1 ∧
      w'.used ≤ w'.draft.registers.limit := by
  rw [takeRegister, ensures_view_bind, Registers.take?, Registers.takeRun?]
  split
  · next h => exact ⟨.nothing rfl rfl (.refl _), rfl, rfl, h⟩
  · trivial

theorem freeRegistersTo_writes (mark : Nat) :
    Ensures False (freeRegistersTo mark) w fun _ w' =>
      w.Writes [] w' ∧ w'.used = mark ∧ mark ≤ w.used := by
  rw [freeRegistersTo, giveBack, ensures_view_bind, Registers.freeTo]
  by_cases h : mark ≤ w.used
  · rw [if_pos h]
    exact ⟨.nothing rfl rfl (.refl _), rfl, h⟩
  · rw [if_neg h]
    exact ensures_misuse.mpr not_false

theorem slotOf?_ensures (x : String) :
    Ensures False (slotOf? x) w fun r w' => w' = w ∧ r = w.slot? x := by
  rw [slotOf?, ensures_view_bind, Workspace.slot?]
  cases w.draft.visible.find? x with
  | none => exact ⟨rfl, rfl⟩
  | some i =>
    refine (localAt_ensures i).bind fun v w₁ h => ?_
    obtain ⟨hv, rfl⟩ := h
    exact ⟨rfl, by rw [Option.bind_eq_bind, Option.bind_some, hv]; rfl⟩

theorem upvalueOf?_writes (x : String) :
    Ensures False (upvalueOf? x) w fun o w' => w.Writes [] w' ∧ w'.used = w.used ∧
      match o with
      | some u => w.knows x = true ∧ ∃ c, w'.draft.upvalues[u]? = some c ∧ c.name = x
      | none => w.knows x = false := by
  have hfinds : (w.draft.resolve x w.enclosing).Finds x w.draft w.enclosing :=
    resolve_finds x w.draft
  obtain ⟨upvalues, hdraft⟩ := hfinds.draft
  have hwrites : w.Writes [] { w with
      draft := (w.draft.resolve x w.enclosing).draft
      enclosing := (w.draft.resolve x w.enclosing).enclosing } :=
    ⟨⟨rfl, by rw [hdraft], by rw [hdraft], by rw [hdraft], by rw [hdraft]; exact .refl _,
      hfinds.upvalues, hfinds.count, hfinds.stack.knows, by rw [hdraft]; exact Nat.le_refl _,
      fun _ _ => by rw [hdraft]⟩, by rw [hdraft]; rfl, nofun⟩
  unfold upvalueOf? Ensures
  dsimp only
  cases hindex : (w.draft.resolve x w.enclosing).index with
  | ok i =>
    refine ⟨hwrites, by rw [Workspace.used, hdraft], ?_⟩
    cases i with
    | some u => exact hfinds.found u hindex
    | none => exact hfinds.missing hindex
  | error e => cases e <;> simp

theorem constantIndex_writes (k : Constant) :
    Ensures False (constantIndex k) w fun i w' => w.Writes [] w' ∧ w'.used = w.used ∧
      ∃ c, w'.draft.constants[i]? = some c ∧ (c = k ∨ c.OppositeZeros k) := by
  rw [constantIndex, ensures_view_bind]
  split
  · next i hi =>
    obtain ⟨hlt, hsame, -⟩ := List.findIdx?_eq_some_iff_getElem.mp hi
    refine ⟨.refl w, rfl, w.draft.constants[i], Array.getElem?_eq_getElem hlt, ?_⟩
    exact (Constant.same_iff.mp hsame).imp And.left id
  · refine ⟨.nothing rfl rfl (.push _ _), rfl, k, Array.getElem?_push_size, Or.inl rfl⟩

/-- A constant is loaded by one instruction if its index fits. -/
theorem loadConstant_writes (line a : Nat) (k : Constant) :
    Ensures False (Emit.loadConstant line a k) w fun _ w' => w.Grows w' ∧ w'.used = w.used ∧
      ∃ i c, w'.draft.constants[i]? = some c ∧ (c = k ∨ c.OppositeZeros k) ∧
        (i ≤ Instruction.maxBx → w.Writes [.abx .loadK a i] w') := by
  refine (constantIndex_writes k).bind fun i w₁ h => ?_
  obtain ⟨hwrites, hused, c, hc, hk⟩ := h
  split
  · refine (emit_writes line (.abx .loadK a i)).bind fun _ w₂ h => ?_
    rw [ensures_pure]
    refine ⟨hwrites.grows.trans h.1.grows, h.2.trans hused, i, c, h.1.grows.constants i c hc, hk,
      ?_⟩
    exact fun _ => hwrites.append h.1
  · next hgt =>
    refine (emit_writes line (.abx .loadKx a 0)).bind fun _ w₂ h => ?_
    refine (emit_writes line (.ax .extraArg i)).bind fun _ w₃ h' => ?_
    rw [ensures_pure]
    refine ⟨(hwrites.grows.trans h.1.grows).trans h'.1.grows, (h'.2.trans h.2).trans hused, i, c,
      ?_, hk, fun hle => absurd hle hgt⟩
    exact h'.1.grows.constants i c (h.1.grows.constants i c hc)

/-- A jump that is aimed is the only instruction that changes. -/
theorem aimJump_ensures {op : Opcode} {pc target close : Nat} {m : Int}
    (htarget : target ≤ w.draft.pc) (hcode : w.draft.code[pc]? = some (.asbx op close m)) :
    Ensures False (aimJump pc target) w fun _ w' =>
      ((target : Int) - pc - 1).natAbs ≤ Instruction.maxOffset ∧ w'.options = w.options ∧
      w'.enclosing = w.enclosing ∧
      w'.draft = w.draft.setCode pc (.asbx op close (target - pc - 1)) := by
  have hpc : pc ≤ w.draft.pc := Nat.le_of_lt (Array.getElem?_eq_some_iff.mp hcode).1
  refine (offsetBetween_ensures pc target).bind fun offset w₁ h => ?_
  obtain ⟨rfl, hoffset, hreach⟩ := h
  rw [Draft.offset_of_le hpc htarget] at hoffset
  subst hoffset
  rw [ensures_view_bind, hcode]
  refine (setInstruction_ensures pc _).bind fun _ w₂ h => ?_
  obtain ⟨-, rfl⟩ := h
  rw [Instruction.withOffset_asbx, ensures_record]
  exact ⟨hreach, rfl, rfl, rfl⟩

/-- Instructions that were there before a stretch of code are not touched inside it. -/
theorem Workspace.Grows.setCode {w w₁ w₂ : Workspace} {pc : Nat} {i : Instruction}
    (h : w.Grows w₁) (hoptions : w₂.options = w₁.options) (henclosing : w₂.enclosing = w₁.enclosing)
    (hdraft : w₂.draft = w₁.draft.setCode pc i) (hpc : w.draft.pc ≤ pc) : w.Grows w₂ where
  options := hoptions.trans h.options
  visible := by rw [hdraft]; exact h.visible
  locals := by rw [hdraft]; exact h.locals
  limit := by rw [hdraft]; exact h.limit
  constants := by rw [hdraft]; exact h.constants
  upvalues := by rw [hdraft]; exact h.upvalues
  count := by rw [hdraft]; exact h.count
  knows := fun x => by
    rw [Workspace.knows, henclosing, hdraft]
    exact (Draft.knows_congr (by rfl) x w₁.enclosing).trans (h.knows x)
  pc := by
    rw [hdraft]
    exact Nat.le_trans h.pc (Nat.le_of_eq Array.size_setIfInBounds.symm)
  code := fun j hj => by
    rw [hdraft, Draft.setCode, Array.getElem?_setIfInBounds_ne (by omega)]
    exact h.code j hj

/-! ## Where an expression can be written -/

/-- The limits are those of instruction fields, and the visible locals are in registers
that are in use. -/
structure Workspace.Ready (w : Workspace) : Prop where
  limit : w.draft.registers.limit ≤ 0xff
  room : w.used ≤ w.draft.registers.limit
  reach : w.options.constantLimit < 0x100
  count : w.draft.upvalues.size ≤ maxUpvalues
  slots : ∀ x r, w.slot? x = some r → r < w.used

namespace Workspace.Ready

theorem used_lt (h : w.Ready) : w.used < 0x100 :=
  Nat.lt_succ_of_le (Nat.le_trans h.room h.limit)

theorem grows {w' : Workspace} (h : w.Ready) (hgrows : w.Grows w') (hle : w.used ≤ w'.used)
    (hroom : w'.used ≤ w'.draft.registers.limit) : w'.Ready where
  limit := by rw [hgrows.limit]; exact h.limit
  room := hroom
  reach := by rw [hgrows.options]; exact h.reach
  count := hgrows.count h.count
  slots := fun x r hr => Nat.lt_of_lt_of_le (h.slots x r (hgrows.slot? x ▸ hr)) hle

/-- With the same registers in use nothing more is asked. -/
theorem same {w' : Workspace} (h : w.Ready) (hgrows : w.Grows w') (hused : w'.used = w.used) :
    w'.Ready :=
  h.grows hgrows (Nat.le_of_eq hused.symm) (by rw [hused, hgrows.limit]; exact h.room)

end Workspace.Ready

end LuaLowering
