import LuaLowering.Proofs.Evaluation.Growth
import LuaLowering.Proofs.Evaluation.Stepping

/-!
# Operands have their values

What running the code between two states of the builder does is said of any function that
has this code in its place, however it goes on: `Scene.Hosts`. A stretch of code evaluates
an expression if it leaves the value in the register that was asked for, and it supplies
an operand if the operand is then where an instruction finds it. Either way the registers
in use are left alone.
-/

namespace LuaLowering

open LowerM

variable {V H : Type} {I : Interpretation V H} {σ : Scene V H} {w w₁ w₂ w' : Workspace}
  {lo a : Nat} {lo' : Nat} {i : Instruction} {is : List Instruction} {regs : Nat → V} {e : Expr}
  {k : Constant} {s : Source}

namespace Scene

/-- A function has the code that was written from a position on, with the constants and
the upvalues it refers to. -/
structure Hosts (σ : Scene V H) (lo : Nat) (w : Workspace) : Prop where
  code : ∀ i, lo ≤ i → i < w.draft.pc → σ.program.code[i]? = w.draft.code[i]?
  constants : Keeps w.draft.constants σ.program.constants
  pool : w.draft.constants.size ≤ 0x40000
  count : w.draft.upvalues.size ≤ σ.program.upvalues.length
  named : ∀ u c, w.draft.upvalues[u]? = some c → σ.upvalues u = σ.outer c.name

namespace Hosts

/-- A part of the code. -/
theorem part (h : σ.Hosts lo w') (hlo : lo ≤ lo') (hpc : w.draft.pc ≤ w'.draft.pc)
    (hcode : ∀ i, lo' ≤ i → i < w.draft.pc → w'.draft.code[i]? = w.draft.code[i]?)
    (hconstants : Keeps w.draft.constants w'.draft.constants)
    (hupvalues : Keeps w.draft.upvalues w'.draft.upvalues) : σ.Hosts lo' w where
  code := fun i hi hlt =>
    (h.code i (Nat.le_trans hlo hi) (Nat.lt_of_lt_of_le hlt hpc)).trans (hcode i hi hlt)
  constants := hconstants.trans h.constants
  pool := Nat.le_trans hconstants.size_le h.pool
  count := Nat.le_trans hupvalues.size_le h.count
  named := fun u c hc => h.named u c (hupvalues u c hc)

theorem before (h : σ.Hosts lo w₂) (hgrows : w₁.Grows w₂) : σ.Hosts lo w₁ :=
  h.part (Nat.le_refl _) hgrows.pc (fun i _ hi => hgrows.code i hi) hgrows.constants hgrows.upvalues

theorem after (h : σ.Hosts lo w) (hlo : lo ≤ lo') : σ.Hosts lo' w :=
  h.part hlo (Nat.le_refl _) (fun _ _ _ => rfl) (.refl _) (.refl _)

/-- Replacing an instruction leaves the code behind it as it is. -/
theorem setCode {pc : Nat} (h : σ.Hosts lo w')
    (hdraft : w'.draft = { w.draft with code := w.draft.code.setIfInBounds pc i }) (hlo : lo ≤ pc)
    (hpc : pc < w.draft.pc) : σ.Has pc i ∧ ∀ lo', pc < lo' → σ.Hosts lo' w := by
  have hpc' : w'.draft.pc = w.draft.pc := by
    rw [hdraft]
    exact Array.size_setIfInBounds
  refine ⟨(h.code pc hlo (by omega)).trans ?_, fun lo' hlt => ?_⟩
  · rw [hdraft]
    exact Array.getElem?_setIfInBounds_self_of_lt hpc
  · refine h.part (by omega) (by omega) (fun j hj _ => ?_) ?_ ?_ <;> rw [hdraft]
    · exact Array.getElem?_setIfInBounds_ne (by omega)
    · exact .refl _
    · exact .refl _

theorem row (h : σ.Hosts lo w₂) (hwrites : w₁.Writes is w₂) (hlo : lo ≤ w₁.draft.pc) :
    σ.HasRow w₁.draft.pc is := by
  intro k i hk
  have hlt : k < is.length := (List.getElem?_eq_some_iff.mp hk).1
  refine (h.code _ (by omega) ?_).trans (hwrites.code k i hk)
  rw [hwrites.pc]
  omega

theorem has (h : σ.Hosts lo w₂) (hwrites : w₁.Writes [i] w₂) (hlo : lo ≤ w₁.draft.pc) :
    σ.Has w₁.draft.pc i :=
  h.row hwrites hlo 0 i rfl

end Hosts

/-- What names stand for while a function is run. -/
def environment (σ : Scene V H) (w : Workspace) (regs : Nat → V) : Environment V H :=
  w.environment regs σ.outer σ.heap

/-- Only the registers in use matter. -/
theorem environment_congr {regs' : Nat → V} (hw : w.Ready) (hgrows : w.Grows w')
    (hregs : ∀ r < w.used, regs' r = regs r) : σ.environment w' regs' = σ.environment w regs := by
  rw [environment, hgrows.environment]
  unfold environment Workspace.environment
  congr 1
  funext x
  cases hx : w.slot? x with
  | none => rfl
  | some r => exact congrArg some (hregs r (hw.slots x r hx))

end Scene

/-! ## Evaluating and supplying -/

/-- Code that leaves the value of something in a register, and the others in use as they
were. -/
def Workspace.Evaluates (I : Interpretation V H) (value : Environment V H → Option V) (a : Nat)
    (w w' : Workspace) : Prop :=
  ∀ ⦃σ : Scene V H⦄ ⦃regs : Nat → V⦄ ⦃v : V⦄, σ.Hosts w.draft.pc w' →
    value (σ.environment w regs) = some v →
    ∃ regs', σ.Runs I w.draft.pc regs w'.draft.pc regs' ∧ regs' a = v ∧
      ∀ r < w.used, r ≠ a → regs' r = regs r

/-- What is known once something was loaded into a register. -/
structure Workspace.Delivers (I : Interpretation V H) (value : Environment V H → Option V) (a : Nat)
    (w w' : Workspace) : Prop where
  grows : w.Grows w'
  used : w'.used = w.used
  evaluates : w.Evaluates I value a w'

/-- Code after which an operand is where its value is, with the registers in use as they
were. -/
def Workspace.Supplies (I : Interpretation V H) (value : Environment V H → Option V) (o : Operand)
    (w w' : Workspace) : Prop :=
  ∀ ⦃σ : Scene V H⦄ ⦃regs : Nat → V⦄ ⦃v : V⦄, σ.Hosts w.draft.pc w' →
    value (σ.environment w regs) = some v →
    ∃ regs', σ.Runs I w.draft.pc regs w'.draft.pc regs' ∧ o.Denotes I σ regs' w'.used v ∧
      ∀ r < w.used, regs' r = regs r

/-- A source whose code evaluates its expression. -/
def Source.Computes (I : Interpretation V H) (s : Source) : Prop :=
  ∀ ⦃w : Workspace⦄ ⦃a : Nat⦄, w.Ready → a < w.used → Ensures False (s.load a 1) w fun _ w' =>
    w.Delivers I (s.exp.value? I) a w'

/-- One register is set by one instruction. -/
theorem Workspace.Writes.evaluates {value : Environment V H → Option V} (h : w.Writes is w')
    (hrun : ∀ ⦃σ : Scene V H⦄ ⦃regs : Nat → V⦄ ⦃v : V⦄, σ.Hosts w.draft.pc w' →
      σ.HasRow w.draft.pc is → value (σ.environment w regs) = some v →
      σ.Runs I w.draft.pc regs (w.draft.pc + is.length) (Function.update regs a v)) :
    w.Evaluates I value a w' := by
  intro σ regs v hhosts hv
  refine ⟨_, h.pc ▸ hrun hhosts (hhosts.row h (Nat.le_refl _)) hv, Function.update_self _ _ _, ?_⟩
  exact fun r _ hne => Function.update_of_ne hne _ _

/-! ## Constants -/

theorem Expr.Simple.literal (he : e.Simple) (hk : e.literal? = some k) :
    (∀ c : Constant, ¬ c.OppositeZeros k) ∧
      ∀ ρ : Environment V H, e.value? I ρ = some (I.constant k) := by
  have hfloat : ∀ c : Constant, (∀ x, k ≠ .float x) → ¬ c.OppositeZeros k := by
    rintro c hne ⟨x, y, -, rfl, -⟩
    exact hne y rfl
  cases he with
  | nil | integer n | string s =>
    cases hk
    exact ⟨fun c => hfloat c nofun, fun ρ => by rw [Expr.value?]⟩
  | boolean b =>
    cases hk
    exact ⟨fun c => hfloat c nofun, fun ρ => by rw [Expr.value?, Interpretation.boolean]⟩
  | _ => cases hk

theorem loadConstant_evaluates {value : Environment V H → Option V} (line : Nat)
    (hk : ∀ c : Constant, ¬ c.OppositeZeros k) (hvalue : ∀ ρ, value ρ = some (I.constant k))
    (ha : a < 0x100) :
    Ensures False (Emit.loadConstant line a k) w fun _ w' =>
      w.Delivers I value a w' := by
  refine (loadConstant_writes line a k).mono fun _ w' h => ?_
  obtain ⟨hgrows, hused, i, c, hc, hck, hwrites⟩ := h
  obtain rfl : c = k := hck.resolve_right (hk c)
  refine ⟨hgrows, hused, fun σ regs v hhosts hv => ?_⟩
  -- the pool is small enough for the index to fit
  have hi : i < 0x40000 := Nat.lt_of_lt_of_le (Array.getElem?_eq_some_iff.mp hc).1 hhosts.pool
  have hone := hwrites (Nat.le_of_lt_succ hi)
  have heval : w.Evaluates I value a w' := hone.evaluates fun σ regs v hhosts hrow hv => by
    refine (hrow 0 _ rfl).loadK ha hi ?_
    rw [hhosts.constants i c hc, Option.map_some, ← hvalue (σ.environment w regs), hv]
  exact heval hhosts hv

/-! ## Names -/

namespace Scene

variable {x : String} {regs : Nat → V}

theorem read?_of_slot {r : Nat} (hx : w.slot? x = some r) :
    (σ.environment w regs).read? I x = some (regs r) := by
  simp [Environment.read?, environment, Workspace.environment, hx]

theorem read?_of_knows (hx : w.slot? x = none) (hknows : w.knows x = true) :
    (σ.environment w regs).read? I x = some (σ.outer x) := by
  simp [Environment.read?, environment, Workspace.environment, hx, hknows]

theorem read?_of_not_knows (hx : w.slot? x = none) (hknows : w.knows x = false) :
    (σ.environment w regs).read? I x = (do
      I.index (σ.environment w regs).heap (← (σ.environment w regs).globals?)
        (I.constant (.string x))) := by
  simp [Environment.read?, environment, Workspace.environment, hx, hknows]

end Scene

/-- An upvalue of a name carries what the name stands for further out. -/
theorem Scene.Hosts.upvalue {x : String} {u used : Nat} {c : Capture} (h : σ.Hosts lo w)
    (hw : w.draft.upvalues.size ≤ maxUpvalues) (hc : w.draft.upvalues[u]? = some c)
    (hname : c.name = x) : (Operand.upvalue u).Denotes I σ regs used (σ.outer x) := by
  have hlt : u < w.draft.upvalues.size := (Array.getElem?_eq_some_iff.mp hc).1
  have hmax : maxUpvalues = 255 := rfl
  refine ⟨by omega, Nat.lt_of_lt_of_le hlt h.count, ?_⟩
  rw [h.named u c hc, hname]

/-! ## Operands -/

/-- What is known once an operand was written. -/
structure Workspace.Provides (I : Interpretation V H) (value : Environment V H → Option V)
    (kinds : OperandKinds) (w : Workspace) (o : Operand) (w' : Workspace) : Prop where
  grows : w.Grows w'
  ready : w'.Ready
  used : w.used ≤ w'.used
  allows : kinds.allows o = true
  supplies : w.Supplies I value o w'

variable {value : Environment V H → Option V} {kinds : OperandKinds} {o : Operand}

/-- An operand that is there already. -/
theorem Workspace.Provides.of_nothing (hw : w.Ready) (h : w.Writes [] w') (hused : w'.used = w.used)
    (hallows : kinds.allows o = true)
    (hdenotes : ∀ ⦃σ : Scene V H⦄ ⦃regs : Nat → V⦄ ⦃v : V⦄, σ.Hosts w.draft.pc w' →
      value (σ.environment w regs) = some v → o.Denotes I σ regs w.used v) :
    w.Provides I value kinds o w' := by
  refine ⟨h.grows, hw.same h.grows hused, Nat.le_of_eq hused.symm, hallows,
    fun σ regs v hh hv => ?_⟩
  have hpc : w'.draft.pc = w.draft.pc := h.pc
  exact ⟨regs, hpc ▸ .refl, hused ▸ hdenotes hh hv, fun _ _ => rfl⟩

/-- Steps that write nothing may come first. -/
theorem Workspace.Writes.provides (h : w.Writes [] w₁) (hw : w.Ready) (hused : w₁.used = w.used)
    (hrest : w₁.Provides I value kinds o w₂) : w.Provides I value kinds o w₂ := by
  have hpc : w₁.draft.pc = w.draft.pc := h.pc
  refine ⟨h.grows.trans hrest.grows, hrest.ready, hused ▸ hrest.used, hrest.allows,
    fun σ regs v hh hv => ?_⟩
  have henv : σ.environment w₁ regs = σ.environment w regs :=
    Scene.environment_congr hw h.grows fun _ _ => rfl
  obtain ⟨regs', hrun, hdenotes, hkeep⟩ :=
    hrest.supplies (hh.after (Nat.le_of_eq hpc.symm)) (henv ▸ hv)
  exact ⟨regs', hpc ▸ hrun, hdenotes, fun r hr => hkeep r (hused.symm ▸ hr)⟩

theorem constantOperand?_provides (he : e.Simple) (hw : w.Ready) (hkinds : kinds.constants = true) :
    Ensures False (constantOperand? e) w fun found w' =>
      w.Writes [] w' ∧ w'.used = w.used ∧
        ∀ o, found = some o → w.Provides I (e.value? I) kinds o w' := by
  unfold constantOperand?
  cases hk : e.literal? with
  | none => exact ⟨.refl w, rfl, nofun⟩
  | some k =>
    obtain ⟨hzeros, hvalue⟩ := he.literal (I := I) hk
    refine (constantIndex_writes k).bind fun i w₁ h => ?_
    obtain ⟨hwrites, hused, c, hc, hck⟩ := h
    obtain rfl : c = k := hck.resolve_right (hzeros c)
    rw [ensures_options_bind, ensures_pure]
    refine ⟨hwrites, hused, fun o ho => ?_⟩
    obtain ⟨hle, ho⟩ := Option.ite_none_right_eq_some.mp ho
    obtain rfl := Option.some.inj ho
    rw [hwrites.grows.options] at hle
    refine .of_nothing hw hwrites hused hkinds fun σ regs v hh hv => ?_
    refine ⟨Nat.lt_of_le_of_lt hle hw.reach, ?_⟩
    rw [hh.constants i c hc, Option.map_some, ← hvalue (σ.environment w regs), hv]

theorem nameOperand?_provides (e : Expr) (hw : w.Ready) (hkinds : kinds.registers = true) :
    Ensures False (nameOperand? e kinds) w fun found w' =>
      w.Writes [] w' ∧ w'.used = w.used ∧
        ∀ o, found = some o → w.Provides I (e.value? I) kinds o w' := by
  have hnothing : w.Writes [] w := .refl w
  unfold nameOperand?
  split
  · next x =>
    rw [hkinds, if_pos rfl]
    refine (slotOf?_ensures x).bind fun r w₁ h => ?_
    obtain ⟨rfl, hr⟩ := h
    cases r with
    | some r =>
      refine ⟨hnothing, rfl, fun o ho => ?_⟩
      obtain rfl := Option.some.inj ho
      refine .of_nothing hw hnothing rfl rfl fun σ regs v _ hv => ⟨hw.slots x r hr.symm, ?_⟩
      rw [Expr.value?, Scene.read?_of_slot hr.symm] at hv
      exact Option.some.inj hv
    | none =>
      by_cases hup : kinds.upvalues = true
      · rw [if_pos hup]
        refine (upvalueOf?_writes x).bind fun u w₂ h => ?_
        obtain ⟨hwrites, hused, hfound⟩ := h
        cases u with
        | none => exact ⟨hwrites, hused, nofun⟩
        | some u =>
          obtain ⟨hknows, c, hc, hname⟩ := hfound
          refine ⟨hwrites, hused, fun o ho => ?_⟩
          obtain rfl := Option.some.inj ho
          refine .of_nothing hw hwrites hused hup fun σ regs v hh hv => ?_
          rw [Expr.value?, Scene.read?_of_knows hr.symm hknows] at hv
          obtain rfl := Option.some.inj hv
          exact hh.upvalue (hwrites.grows.count hw.count) hc hname
      · rw [if_neg hup]
        exact ⟨hnothing, rfl, nofun⟩
  · exact ⟨hnothing, rfl, nofun⟩

/-- A fresh register supplies what is loaded into it. -/
theorem fresh_provides (hs : s.Computes I) (hw : w.Ready) :
    Ensures False (do
      let r ← takeRegister
      s.load r 1
      pure (Operand.register r)) w fun o w' => w.Provides I (s.exp.value? I) kinds o w' := by
  refine takeRegister_writes.bind fun r w₁ h => ?_
  obtain ⟨hwrites, rfl, hused, hroom⟩ := h
  have hw₁ : w₁.Ready := hw.grows hwrites.grows (by omega) hroom
  refine (hs hw₁ (by omega)).bind fun _ w₂ h => ?_
  obtain ⟨hgrows, hused', hevaluates⟩ := h
  have hpc : w₁.draft.pc = w.draft.pc := hwrites.pc
  refine ⟨hwrites.grows.trans hgrows, hw₁.same hgrows hused', by omega, rfl,
    fun σ regs v hh hv => ?_⟩
  have henv : σ.environment w₁ regs = σ.environment w regs :=
    Scene.environment_congr hw hwrites.grows fun _ _ => rfl
  obtain ⟨regs', hrun, hval, hkeep⟩ :=
    hevaluates (hh.after (Nat.le_of_eq hpc.symm)) (henv ▸ hv)
  exact ⟨regs', hpc ▸ hrun, ⟨by omega, hval⟩, fun r hr => hkeep r (by omega) (by omega)⟩

theorem operand_provides (hs : s.Computes I) (he : s.exp.Simple) (hw : w.Ready)
    (hkinds : kinds.registers = true) :
    Ensures False (operand s kinds) w fun o w' => w.Provides I (s.exp.value? I) kinds o w' := by
  have hconstant : Ensures False (if kinds.constants then constantOperand? s.exp else pure none) w
      fun found w' => w.Writes [] w' ∧ w'.used = w.used ∧
        ∀ o, found = some o → w.Provides I (s.exp.value? I) kinds o w' := by
    split
    · next hconstants => exact constantOperand?_provides he hw hconstants
    · exact ⟨.refl w, rfl, nofun⟩
  refine hconstant.bind fun found w₁ h => ?_
  obtain ⟨hwrites, hused, hfound⟩ := h
  cases found with
  | some o => exact hfound o rfl
  | none =>
    have hw₁ := hw.same hwrites.grows hused
    refine Ensures.mono (P := fun o w' => w₁.Provides I (s.exp.value? I) kinds o w') ?_
      fun o w' h => hwrites.provides hw hused h
    refine (nameOperand?_provides (I := I) s.exp hw₁ hkinds).bind fun found w₂ h => ?_
    obtain ⟨hwrites', hused', hfound'⟩ := h
    cases found with
    | some o => exact hfound' o rfl
    | none =>
      have hw₂ := hw₁.same hwrites'.grows hused'
      exact (fresh_provides hs hw₂).mono fun o w' h => hwrites'.provides hw₁ hused' h

/-- The table of globals is always in place. -/
theorem globalsOperand_provides (hw : w.Ready) :
    Ensures False globalsOperand w fun o w' =>
      w.Writes [] w' ∧ w'.used = w.used ∧
        w.Provides I Environment.globals? .registerOrUpvalue o w' := by
  refine (slotOf?_ensures "_ENV").bind fun r w₁ h => ?_
  obtain ⟨rfl, hr⟩ := h
  have hnothing : w₁.Writes [] w₁ := .refl w₁
  cases r with
  | some r =>
    refine ⟨hnothing, rfl, .of_nothing hw hnothing rfl rfl fun σ regs v _ hv => ?_⟩
    refine ⟨hw.slots _ r hr.symm, ?_⟩
    simpa [Environment.globals?, Scene.environment, Workspace.environment, ← hr] using hv
  | none =>
    refine (upvalueOf?_writes "_ENV").bind fun u w₂ h => ?_
    obtain ⟨hwrites, hused, hfound⟩ := h
    cases u with
    | none => exact (ensures_true _ _).bind fun _ _ _ => ensures_reject
    | some u =>
      obtain ⟨hknows, c, hc, hname⟩ := hfound
      refine ⟨hwrites, hused, .of_nothing hw hwrites hused rfl fun σ regs v hh hv => ?_⟩
      obtain rfl : σ.outer "_ENV" = v := by
        simpa [Environment.globals?, Scene.environment, Workspace.environment, ← hr, hknows]
          using hv
      exact hh.upvalue (hwrites.grows.count hw.count) hc hname

end LuaLowering
