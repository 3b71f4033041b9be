import LuaLowering.Operand
import LuaLowering.Proofs.Evaluation.Machine

/-!
# Steps of the register machine

One lemma for each instruction that expressions are made of: where it stands in the code,
the machine goes from one position and register contents to the next, and upvalues and
heap stay as they are. Fields of instruction words are read back here, so that the proofs
that chain these steps see operands only.
-/

namespace LuaLowering

open Evaluation

/-- A function that is being run, with what stays as it is while an expression is
evaluated. -/
structure Scene (V H : Type) where
  program : Prototype
  upvalues : Nat → V
  /-- The variables of functions further out. -/
  outer : String → V
  heap : H

variable {V H : Type} {I : Interpretation V H} {σ : Scene V H} {regs : Nat → V}
  {pc a b c used : Nat} {l r v : V} {op : BinaryOp} {regs' : Nat → V} {o k x y : Operand}
  {code : Opcode} {outcome left right : Nat}

namespace Scene

/-- The machine goes from one position and register contents to another. -/
abbrev Runs (I : Interpretation V H) (σ : Scene V H) (pc : Nat) (regs : Nat → V) (pc' : Nat)
    (regs' : Nat → V) : Prop :=
  Reaches I σ.program ⟨pc, regs, σ.upvalues, σ.heap⟩ ⟨pc', regs', σ.upvalues, σ.heap⟩

/-- An instruction stands at a position. -/
def Has (σ : Scene V H) (pc : Nat) (i : Instruction) : Prop := σ.program.code[pc]? = some i

theorem Has.runs {i : Instruction} {op : Opcode} {pc' : Nat} (h : σ.Has pc i)
    (hop : i.opcode? = some op) (hexec : exec I σ.program i ⟨pc, regs, σ.upvalues, σ.heap⟩ op =
      some ⟨pc', regs', σ.upvalues, σ.heap⟩) : σ.Runs I pc regs pc' regs' := by
  refine .single ?_
  have hcode : σ.program.code[pc]? = some i := h
  simp only [step, hcode, hop, Option.bind_eq_bind, Option.bind_some]
  exact hexec

end Scene

/-! ## Operands -/

/-- An operand is where its value is. -/
def Operand.Denotes (I : Interpretation V H) (σ : Scene V H) (regs : Nat → V) (used : Nat) :
    Operand → V → Prop
  | .register r, v => r < used ∧ regs r = v
  | .constant i, v => i < 0x100 ∧ (σ.program.constants[i]?).map I.constant = some v
  | .upvalue u, v => u < 0x100 ∧ u < σ.program.upvalues.length ∧ σ.upvalues u = v

/-- Whether an instruction that accepts some kinds of operand may get this one. -/
def OperandKinds.allows (kinds : OperandKinds) : Operand → Bool
  | .register _ => true
  | .constant _ => kinds.constants
  | .upvalue _ => kinds.upvalues

theorem OperandKinds.eq_register (h : OperandKinds.register.allows o = true) :
    ∃ r, o = .register r := by
  cases o with
  | register r => exact ⟨r, rfl⟩
  | constant | upvalue => cases h

namespace Operand.Denotes

theorem keep {used' : Nat} (h : o.Denotes I σ regs used v) (hregs : ∀ r < used, regs' r = regs r)
    (hle : used ≤ used') : o.Denotes I σ regs' used' v := by
  cases o with
  | register r => exact ⟨Nat.lt_of_lt_of_le h.1 hle, (hregs r h.1).trans h.2⟩
  | constant | upvalue => exact h

/-- What a field that is a register or a constant stands for. -/
theorem operand? (h : o.Denotes I σ regs used v) (hused : used ≤ 0x100)
    (ho : OperandKinds.registerOrConstant.allows o = true) :
    Evaluation.operand? I σ.program ⟨pc, regs, σ.upvalues, σ.heap⟩ (o.field % 0x200) = some v := by
  cases o with
  | register r =>
    obtain ⟨hlt, rfl⟩ := h
    have hr : r % 0x200 = r := by omega
    have hkind : Instruction.isConstant r = false := by
      rw [Instruction.isConstant, decide_eq_false_iff_not]
      omega
    have hlt' : r < 0x100 := by omega
    simp [Operand.field, Evaluation.operand?, hr, hkind, State.register?, hlt']
  | constant i =>
    obtain ⟨hlt, hv⟩ := h
    have hi : (i + 0x100) % 0x200 = i + 0x100 := by omega
    have hkind : Instruction.isConstant (i + 0x100) = true := by
      rw [Instruction.isConstant, decide_eq_true_eq]
      omega
    have hindex : (i + 0x100) % 0x100 = i := by omega
    rw [Operand.field, Instruction.constantField_of_lt hlt, Evaluation.operand?, hi, hkind,
      if_pos rfl, hindex]
    exact hv
  | upvalue => cases ho

end Operand.Denotes

/-! ## Instructions -/

namespace Scene

theorem Has.move (h : σ.Has pc (.abc .move a b 0)) (ha : a < 0x100) (hb : b < 0x100) :
    σ.Runs I pc regs (pc + 1) (Function.update regs a (regs b)) := by
  have hb' : b % 0x200 = b := by omega
  refine h.runs (Instruction.opcode?_abc ..) ?_
  simp [perform?, store?, State.register?, State.write?, State.set, State.skip, hb, hb',
    Nat.mod_eq_of_lt ha]

theorem Has.loadK {i : Nat} (h : σ.Has pc (.abx .loadK a i)) (ha : a < 0x100) (hi : i < 0x40000)
    (hv : (σ.program.constants[i]?).map I.constant = some v) :
    σ.Runs I pc regs (pc + 1) (Function.update regs a v) := by
  refine h.runs (Instruction.opcode?_abx ..) ?_
  simp [assign?, State.set, State.skip, hv, Nat.mod_eq_of_lt ha, Nat.mod_eq_of_lt hi]

/-- Nil is loaded into one register. -/
theorem Has.loadNil (h : σ.Has pc (.abc .loadNil a 0 0)) (ha : a < 0x100) :
    σ.Runs I pc regs (pc + 1) (Function.update regs a (I.constant .nil)) := by
  refine h.runs (Instruction.opcode?_abc ..) ?_
  have hregs : (fun r => if a ≤ r ∧ r ≤ a then I.constant .nil else regs r) =
      Function.update regs a (I.constant .nil) := by
    funext r
    by_cases hr : r = a
    · subst hr
      simp
    · rw [Function.update_of_ne hr, if_neg (by omega)]
  simp [State.skip, Nat.mod_eq_of_lt ha, ha, hregs]

theorem Has.loadBool (h : σ.Has pc (.abc .loadBool a b c)) (ha : a < 0x100) (hb : b < 0x200)
    (hc : c < 0x200) :
    σ.Runs I pc regs (pc + if c = 0 then 1 else 2)
      (Function.update regs a (I.boolean (b != 0))) := by
  refine h.runs (Instruction.opcode?_abc ..) ?_
  simp [State.set, State.skip, Nat.mod_eq_of_lt ha, Nat.mod_eq_of_lt hb, Nat.mod_eq_of_lt hc]

theorem Has.getUpval (h : σ.Has pc (.abc .getUpval a b 0)) (ha : a < 0x100)
    (hb : (Operand.upvalue b).Denotes I σ regs used v) :
    σ.Runs I pc regs (pc + 1) (Function.update regs a v) := by
  obtain ⟨hlt, hcount, rfl⟩ := hb
  have hb' : b % 0x200 = b := by omega
  refine h.runs (Instruction.opcode?_abc ..) ?_
  simp [assign?, upvalue?, State.set, State.skip, Nat.mod_eq_of_lt ha, hb', hcount]

theorem Has.getTable {t : Nat} (h : σ.Has pc (.abc .getTable a t k.field)) (ha : a < 0x100)
    (hused : used ≤ 0x100) (ht : (Operand.register t).Denotes I σ regs used l)
    (hk : k.Denotes I σ regs used r) (hkind : OperandKinds.registerOrConstant.allows k = true)
    (hv : I.index σ.heap l r = some v) : σ.Runs I pc regs (pc + 1) (Function.update regs a v) := by
  obtain ⟨hlt, rfl⟩ := ht
  have ht' : t % 0x200 = t := by omega
  have ht'' : t < 0x100 := by omega
  refine h.runs (Instruction.opcode?_abc ..) ?_
  simp [assign?, State.register?, State.set, State.skip, Nat.mod_eq_of_lt ha, ht', ht'',
    hk.operand? hused hkind, hv]

theorem Has.getTabUp {u : Nat} (h : σ.Has pc (.abc .getTabUp a u k.field)) (ha : a < 0x100)
    (hused : used ≤ 0x100) (ht : (Operand.upvalue u).Denotes I σ regs used l)
    (hk : k.Denotes I σ regs used r) (hkind : OperandKinds.registerOrConstant.allows k = true)
    (hv : I.index σ.heap l r = some v) : σ.Runs I pc regs (pc + 1) (Function.update regs a v) := by
  obtain ⟨hlt, hcount, rfl⟩ := ht
  have hu' : u % 0x200 = u := by omega
  refine h.runs (Instruction.opcode?_abc ..) ?_
  simp [assign?, upvalue?, State.set, State.skip, Nat.mod_eq_of_lt ha, hu', hcount,
    hk.operand? hused hkind, hv]

theorem Has.unary {op : UnaryOp} (h : σ.Has pc (.abc (Emit.unaryOpcode op) a b 0)) (ha : a < 0x100)
    (hb : b < 0x100) (hv : I.unary op (regs b) = some v) :
    σ.Runs I pc regs (pc + 1) (Function.update regs a v) := by
  have hb' : b % 0x200 = b := by omega
  refine h.runs (Instruction.opcode?_abc ..) ?_
  cases op <;>
    simp [Emit.unaryOpcode, assign?, State.register?, State.set, State.skip, Nat.mod_eq_of_lt ha,
      hb, hb', hv]

/-- The values in a row of registers are concatenated. -/
theorem Has.concat {n : Nat} (h : σ.Has pc (.abc .concat a b (b + n))) (ha : a < 0x100)
    (hn : b + n < 0x100) (hv : I.concat ((List.range' b (n + 1)).map regs) = some v) :
    σ.Runs I pc regs (pc + 1) (Function.update regs a v) := by
  have hb : b % 0x200 = b := by omega
  have hlast : (b + n) % 0x200 = b + n := by omega
  have hrow : b + n + 1 - b = n + 1 := by omega
  refine h.runs (Instruction.opcode?_abc ..) ?_
  simp [row?, assign?, State.set, State.skip, Nat.mod_eq_of_lt ha, hb, hlast, hn, hrow, hv]

theorem Has.jump {offset : Int} {target : Nat} (h : σ.Has pc (.asbx .jmp a offset))
    (hreach : offset.natAbs ≤ Instruction.maxOffset) (htarget : (pc : Int) + 1 + offset = target) :
    σ.Runs I pc regs target regs := by
  refine h.runs (Instruction.opcode?_asbx ..) ?_
  simp [State.jump?, Instruction.offset_asbx _ _ hreach, htarget]

/-- A value that is kept is copied, and the next instruction is not skipped. -/
theorem Has.testSet (h : σ.Has pc (.abc .testSet a b c)) (ha : a < 0x100) (hb : b < 0x100)
    (hc : c < 0x200) (hkept : I.truthy (regs b) = (c != 0)) :
    σ.Runs I pc regs (pc + 1) (Function.update regs a (regs b)) := by
  have hb' : b % 0x200 = b := by omega
  refine h.runs (Instruction.opcode?_abc ..) ?_
  simp [State.register?, State.set, State.skip, Nat.mod_eq_of_lt ha, Nat.mod_eq_of_lt hc, hb, hb',
    hkept]

theorem Has.testSet_skip (h : σ.Has pc (.abc .testSet a b c)) (hb : b < 0x100) (hc : c < 0x200)
    (hother : I.truthy (regs b) ≠ (c != 0)) : σ.Runs I pc regs (pc + 2) regs := by
  have hb' : b % 0x200 = b := by omega
  refine h.runs (Instruction.opcode?_abc ..) ?_
  simp [State.register?, State.skip, Nat.mod_eq_of_lt hc, hb, hb', hother]

/-! ## Binary operators -/

theorem Has.arithmetic (h : σ.Has pc (.abc code a x.field y.field))
    (hcode : Emit.arithmetic? op = some code) (ha : a < 0x100) (hused : used ≤ 0x100)
    (hx : x.Denotes I σ regs used l) (hy : y.Denotes I σ regs used r)
    (hxk : OperandKinds.registerOrConstant.allows x = true)
    (hyk : OperandKinds.registerOrConstant.allows y = true) (hv : I.strict op l r = some v) :
    σ.Runs I pc regs (pc + 1) (Function.update regs a v) := by
  refine h.runs (Instruction.opcode?_abc ..) ?_
  cases op <;> cases hcode <;> simp only [Interpretation.strict] at hv <;>
    simp [combine?, assign?, State.set, State.skip, Nat.mod_eq_of_lt ha, hx.operand? hused hxk,
      hy.operand? hused hyk, hv]

/-- Instructions stand in a row. -/
def HasRow (σ : Scene V H) (pc : Nat) (is : List Instruction) : Prop :=
  ∀ k i, is[k]? = some i → σ.Has (pc + k) i

end Scene

namespace Interpretation

/-- The test that an operation makes. -/
def test? (I : Interpretation V H) : Opcode → V → V → Option Bool
  | .eq => I.equal
  | .lt => I.less
  | .le => I.lessEqual
  | _ => fun _ _ => none

/-- A comparison is a test of its operands in one order or the other, and its outcome or
the opposite. -/
theorem strict_of_comparison (I : Interpretation V H)
    (h : Emit.comparison? op x.field y.field = some (code, outcome, left, right))
    (hv : I.strict op l r = some v) :
    outcome < 0x100 ∧ ∃ holds, v = I.boolean (holds == (outcome != 0)) ∧
      (left = x.field ∧ right = y.field ∧ I.test? code l r = some holds ∨
        left = y.field ∧ right = x.field ∧ I.test? code r l = some holds) := by
  cases op <;> cases h <;> obtain ⟨holds, hholds, rfl⟩ := Option.map_eq_some_iff.mp hv <;>
    refine ⟨by decide, holds, by cases holds <;> rfl, ?_⟩ <;>
    first
      | exact Or.inl ⟨rfl, rfl, hholds⟩
      | exact Or.inr ⟨rfl, rfl, hholds⟩

end Interpretation

namespace Scene

/-- A test of two fields goes on to one of two loads. -/
theorem HasRow.comparison {holds : Bool}
    (h : σ.HasRow pc [.abc code outcome left right, .asbx .jmp 0 1, .abc .loadBool a 0 1,
      .abc .loadBool a 1 0]) (ha : a < 0x100) (hout : outcome < 0x100)
    (hl : operand? I σ.program ⟨pc, regs, σ.upvalues, σ.heap⟩ (left % 0x200) = some l)
    (hr : operand? I σ.program ⟨pc, regs, σ.upvalues, σ.heap⟩ (right % 0x200) = some r)
    (htest : I.test? code l r = some holds) :
    σ.Runs I pc regs (pc + 4) (Function.update regs a (I.boolean (holds == (outcome != 0)))) := by
  have hexec : ∀ i s, exec I σ.program i s code = compare? I σ.program s i (I.test? code) := by
    intro i s
    cases code <;> first | rfl | cases htest
  have hbranch : σ.Runs I pc regs (pc + if (holds == (outcome != 0)) then 1 else 2) regs := by
    refine (h 0 _ rfl).runs (Instruction.opcode?_abc ..) ?_
    rw [hexec]
    simp [compare?, hl, hr, htest, State.branch, State.skip, Nat.mod_eq_of_lt hout]
  cases hcase : (holds == (outcome != 0)) with
  | false =>
    rw [hcase, if_neg Bool.false_ne_true] at hbranch
    exact hbranch.trans ((h 2 _ rfl).loadBool ha (by omega) (by omega))
  | true =>
    rw [hcase, if_pos rfl] at hbranch
    have hjump : σ.Runs I (pc + 1) regs (pc + 3) regs :=
      (h 1 _ rfl).jump (by decide) (by omega)
    exact (hbranch.trans hjump).trans ((h 3 _ rfl).loadBool ha (by omega) (by omega))

end Scene

/-- The instructions of an operator that evaluates both operands. -/
def Emit.combination (op : BinaryOp) (a b c : Nat) : List Instruction :=
  match Emit.arithmetic? op with
  | some code => [.abc code a b c]
  | none =>
    match Emit.comparison? op b c with
    | some (code, outcome, left, right) =>
      [.abc code outcome left right, .asbx .jmp 0 1, .abc .loadBool a 0 1, .abc .loadBool a 1 0]
    | none => []

theorem Scene.HasRow.combination (h : σ.HasRow pc (Emit.combination op a x.field y.field))
    (ha : a < 0x100) (hused : used ≤ 0x100) (hx : x.Denotes I σ regs used l)
    (hy : y.Denotes I σ regs used r) (hxk : OperandKinds.registerOrConstant.allows x = true)
    (hyk : OperandKinds.registerOrConstant.allows y = true) (hv : I.strict op l r = some v) :
    σ.Runs I pc regs (pc + (Emit.combination op a x.field y.field).length)
      (Function.update regs a v) := by
  cases hcode : Emit.arithmetic? op with
  | some code =>
    simp only [Emit.combination, hcode] at h ⊢
    exact (h 0 _ rfl).arithmetic hcode ha hused hx hy hxk hyk hv
  | none =>
    cases htest : Emit.comparison? op x.field y.field with
    | none =>
      cases op <;>
        simp [Emit.arithmetic?, Emit.comparison?, Interpretation.strict] at hcode htest hv
    | some test =>
      obtain ⟨code, outcome, left, right⟩ := test
      simp only [Emit.combination, hcode, htest] at h ⊢
      obtain ⟨hout, holds, rfl, ⟨rfl, rfl, hholds⟩ | ⟨rfl, rfl, hholds⟩⟩ :=
        I.strict_of_comparison htest hv
      · exact h.comparison ha hout (hx.operand? hused hxk) (hy.operand? hused hyk) hholds
      · exact h.comparison ha hout (hy.operand? hused hyk) (hx.operand? hused hxk) hholds

end LuaLowering
