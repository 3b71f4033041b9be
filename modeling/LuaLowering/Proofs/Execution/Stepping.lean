import LuaLowering.Proofs.Shape.Site
import LuaLowering.Proofs.Words
import LuaLowering.Proofs.Execution.Machine

/-!
# What each instruction does

One lemma for each instruction of the fragment: where it stands in the code of a
function, the machine goes from one state to the next. The fields of an instruction
word are read back here, so the proofs that chain these steps see registers and
positions only. All of them leave the target position as a variable.
-/

namespace LuaLowering

open Machine

/-- The run of a site's function goes from one state to another. -/
abbrev Site.Reaches (S : Site) (A : Arithmetic) : State → State → Prop :=
  Machine.Reaches A (S.draft.finish S.options)

abbrev Site.Halts (S : Site) (A : Arithmetic) : State → List Value → Globals → Prop :=
  Machine.Halts A (S.draft.finish S.options)

variable {A : Arithmetic} {S : Site} {pc a b c : Nat} {regs : Nat → Value} {g : Globals}
  {i : Instruction} {op : BinaryOp} {s : State} {v r l : Value} {x : String} {target keep : Nat}
  {code : Opcode} {n limit next : Int64}

theorem Site.Has.step_eq {op : Opcode} (h : S.Has s.pc i) (hop : i.opcode? = some op) :
    step A (S.draft.finish S.options) s = exec A (S.draft.finish S.options) i s op := by
  have hcode : (S.draft.finish S.options).code[s.pc]? = some i := h
  simp [step, hcode, hop]

theorem Site.Has.reaches {op : Opcode} {s' : State} (h : S.Has s.pc i) (hop : i.opcode? = some op)
    (hexec : exec A (S.draft.finish S.options) i s op = some (.next s')) : S.Reaches A s s' :=
  .single ((h.step_eq hop).trans hexec)

/-! ## Operands -/

/-- A field holds a value: it is a register below 256 or a constant. -/
def Site.Field (S : Site) (regs : Nat → Value) (field : Nat) (v : Value) : Prop :=
  (field < 256 ∧ regs field = v) ∨
    ∃ i k, field = i + 256 ∧ i < 256 ∧ S.draft.constants[i]? = some k ∧ Value.ofConstant? k = some v

theorem Site.Field.operand?_eq {field : Nat} (h : S.Field regs field v) :
    operand? (S.draft.finish S.options) ⟨pc, regs, g⟩ (field % 0x200) = some v := by
  rcases h with ⟨hlt, rfl⟩ | ⟨i, k, rfl, hlt, hk, hv⟩
  · have hfield : field % 0x200 = field := by omega
    have hreg : Instruction.isConstant field = false := by
      simp only [Instruction.isConstant, decide_eq_false_iff_not]
      omega
    simp [operand?, hfield, hreg, State.register?, hlt]
  · have hfield : (i + 256) % 0x200 = i + 256 := by omega
    have hconst : Instruction.isConstant (i + 256) = true := by
      simp only [Instruction.isConstant, decide_eq_true_eq]
      omega
    have hindex : (i + 256) % 0x100 = i := by omega
    have hpool : (S.draft.finish S.options).constants[i]? = some k := hk
    simp [operand?, hfield, hconst, hindex, constant?, hpool, hv]

/-! ## Instructions -/

theorem Site.Has.move (h : S.Has pc (.abc .move a b 0)) (ha : a < 256) (hb : b < 256) :
    S.Reaches A ⟨pc, regs, g⟩ ⟨pc + 1, Function.update regs a (regs b), g⟩ := by
  have ha' : a % 256 = a := by omega
  have hb' : b % 512 = b := by omega
  exact h.reaches (Instruction.opcode?_abc ..)
    (by simp [exec, ha', hb', hb, State.register?, State.set, State.skip])

theorem Site.Has.loadK {i : Nat} {k : Constant} (h : S.Has pc (.abx .loadK a i)) (ha : a < 256)
    (hi : i < 0x40000) (hk : S.draft.constants[i]? = some k) (hv : Value.ofConstant? k = some v) :
    S.Reaches A ⟨pc, regs, g⟩ ⟨pc + 1, Function.update regs a v, g⟩ := by
  have ha' : a % 256 = a := by omega
  have hi' : i % 0x40000 = i := by omega
  have hpool : (S.draft.finish S.options).constants[i]? = some k := hk
  exact h.reaches (Instruction.opcode?_abx ..)
    (by simp [exec, ha', hi', constant?, hpool, hv, State.set, State.skip])

theorem Site.Has.loadNil (h : S.Has pc (.abc .loadNil a b 0)) (hab : a + b < 256) :
    S.Reaches A ⟨pc, regs, g⟩
      ⟨pc + 1, fun r => if a ≤ r ∧ r ≤ a + b then .nil else regs r, g⟩ := by
  have ha' : a % 256 = a := by omega
  have hb' : b % 512 = b := by omega
  exact h.reaches (Instruction.opcode?_abc ..) (by simp [exec, ha', hb', hab, State.skip])

theorem Site.Has.loadBool (h : S.Has pc (.abc .loadBool a b c)) (ha : a < 256) (hb : b < 512)
    (hc : c < 512) :
    S.Reaches A ⟨pc, regs, g⟩
      ⟨pc + if c = 0 then 1 else 2, Function.update regs a (.boolean (b != 0)), g⟩ := by
  have ha' : a % 256 = a := by omega
  have hb' : b % 512 = b := by omega
  have hc' : c % 512 = c := by omega
  exact h.reaches (Instruction.opcode?_abc ..)
    (by simp [exec, ha', hb', hc', State.set, State.skip])

theorem Site.Has.getTabUp (h : S.Has pc (.abc .getTabUp a b c)) (ha : a < 256)
    (hc : S.Field regs c (.string x)) :
    S.Reaches A ⟨pc, regs, g⟩ ⟨pc + 1, Function.update regs a (g.read x), g⟩ := by
  have ha' : a % 256 = a := by omega
  exact h.reaches (Instruction.opcode?_abc ..)
    (by simp [exec, ha', key?, hc.operand?_eq, Value.string?, State.set, State.skip])

theorem Site.Has.setTabUp (h : S.Has pc (.abc .setTabUp a b c)) (hb : S.Field regs b (.string x))
    (hc : S.Field regs c v) : S.Reaches A ⟨pc, regs, g⟩ ⟨pc + 1, regs, g.write x v⟩ :=
  h.reaches (Instruction.opcode?_abc ..)
    (by simp [exec, key?, hb.operand?_eq, hc.operand?_eq, Value.string?, State.skip])

theorem Site.Jumps.reaches (h : S.Jumps .jmp pc a target) :
    S.Reaches A ⟨pc, regs, g⟩ ⟨target, regs, g⟩ := by
  refine h.2.reaches (Instruction.opcode?_asbx ..) ?_
  have hoffset := Instruction.offset_asbx .jmp a h.1
  have hpc : (pc : Int) + 1 + (target - pc - 1) = target := by omega
  simp [exec, State.jump?, hoffset, hpc]

/-- The test before a jump: the jump is taken when the value is false. -/
theorem Site.Has.test {r : Nat} (h : S.Has pc (.abc .test r 0 0)) (hr : r < 256) :
    S.Reaches A ⟨pc, regs, g⟩ ⟨pc + if (regs r).truthy then 2 else 1, regs, g⟩ := by
  have hr' : r % 256 = r := by omega
  refine h.reaches (Instruction.opcode?_abc ..) ?_
  cases htruthy : (regs r).truthy <;>
    simp [exec, branch, hr', hr, State.register?, htruthy, State.skip]

/-- The test of `and` (`keep` is 0) and `or` (`keep` is 1): a value that decides
the outcome is kept, and the jump behind the test is taken. -/
theorem Site.Has.testSet (h : S.Has pc (.abc .testSet a b keep)) (ha : a < 256) (hb : b < 256)
    (hkeep : keep < 512) (htest : (regs b).truthy = (keep != 0)) :
    S.Reaches A ⟨pc, regs, g⟩ ⟨pc + 1, Function.update regs a (regs b), g⟩ := by
  have ha' : a % 256 = a := by omega
  have hb' : b % 512 = b := by omega
  have hkeep' : keep % 512 = keep := by omega
  refine h.reaches (Instruction.opcode?_abc ..) ?_
  simp [exec, hb', State.register?, hb, hkeep', ha', htest, State.set, State.skip]

theorem Site.Has.testSet_skip (h : S.Has pc (.abc .testSet a b keep)) (hb : b < 256)
    (hkeep : keep < 512) (htest : (regs b).truthy ≠ (keep != 0)) :
    S.Reaches A ⟨pc, regs, g⟩ ⟨pc + 2, regs, g⟩ := by
  have hb' : b % 512 = b := by omega
  have hkeep' : keep % 512 = keep := by omega
  refine h.reaches (Instruction.opcode?_abc ..) ?_
  simp [exec, hb', State.register?, hb, hkeep', htest, State.skip]

/-- An operator that one instruction applies. -/
theorem Site.Has.arithmetic (hop : Emit.arithmetic? op = some code) (h : S.Has pc (.abc code a b c))
    (ha : a < 256) (hb : S.Field regs b l) (hc : S.Field regs c r)
    (hv : op.result? A l r = some v) :
    S.Reaches A ⟨pc, regs, g⟩ ⟨pc + 1, Function.update regs a v, g⟩ := by
  have ha' : a % 256 = a := by omega
  refine h.reaches (Instruction.opcode?_abc ..) ?_
  cases op with
  | add | sub =>
    cases hop
    simp [exec, combine?, ha', hb.operand?_eq, hc.operand?_eq, hv, State.set, State.skip]
  | _ => simp [BinaryOp.result?, Emit.arithmetic?] at hv hop

/-- What a comparison gives is true or false. -/
theorem BinaryOp.boolean_of_comparison {test : Opcode × Nat × Nat × Nat}
    (hop : Emit.comparison? op b c = some test) (hv : op.result? A l r = some v) :
    ∃ holds, v = .boolean holds := by
  cases op with
  | eq | ne => exact ⟨_, (Option.some.inj hv).symm⟩
  | lt | le | gt | ge =>
    simp only [BinaryOp.result?, Value.compare?, Option.bind_eq_bind, Option.bind_eq_some_iff] at hv
    obtain ⟨_, _, _, _, hv⟩ := hv
    exact ⟨_, (Option.some.inj hv).symm⟩
  | _ => cases hop

/-- A comparison: the jump behind the test is taken when it holds. -/
theorem Site.Has.comparison {outcome left right : Nat} {holds : Bool}
    (hop : Emit.comparison? op b c = some (code, outcome, left, right))
    (h : S.Has pc (.abc code outcome left right)) (hb : S.Field regs b l) (hc : S.Field regs c r)
    (hv : op.result? A l r = some (.boolean holds)) :
    S.Reaches A ⟨pc, regs, g⟩ ⟨pc + if holds then 1 else 2, regs, g⟩ := by
  refine h.reaches (Instruction.opcode?_abc ..) ?_
  cases op with
  | lt | le | gt | ge =>
    cases hop
    simp only [BinaryOp.result?] at hv
    cases holds <;>
      simp [exec, compare?, hb.operand?_eq, hc.operand?_eq, BinaryOp.result?, hv,
        branch, State.skip]
  | eq =>
    cases hop
    obtain rfl : decide (l = r) = holds := by simpa [BinaryOp.result?] using hv
    by_cases heq : l = r <;>
      simp [exec, compare?, hb.operand?_eq, hc.operand?_eq, BinaryOp.result?, heq,
        branch, State.skip]
  | ne =>
    cases hop
    obtain rfl : decide (l ≠ r) = holds := by simpa [BinaryOp.result?] using hv
    by_cases heq : l = r <;>
      simp [exec, compare?, hb.operand?_eq, hc.operand?_eq, BinaryOp.result?, heq,
        branch, State.skip]
  | _ => cases hop

theorem Site.Jumps.forPrep {step before : Int64} (h : S.Jumps .forPrep pc a target)
    (ha : a + 2 < 256) (hn : regs a = .integer n) (hstep : regs (a + 2) = .integer step)
    (hsub : A.sub n step = some before) :
    S.Reaches A ⟨pc, regs, g⟩ ⟨target, Function.update regs a (.integer before), g⟩ := by
  refine h.2.reaches (Instruction.opcode?_asbx ..) ?_
  have hoffset := Instruction.offset_asbx .forPrep a h.1
  have hpc : (pc : Int) + 1 + (target - pc - 1) = target := by omega
  have ha' : a % 256 = a := by omega
  have hlt : a < 256 := by omega
  simp [exec, State.integer?, State.register?, State.set, State.jump?, Value.integer?, ha', ha, hlt,
    hn, hstep, hsub, hoffset, hpc]

/-- One more round of a loop. -/
theorem Site.Jumps.forLoop {step : Int64} (h : S.Jumps .forLoop pc a target) (ha : a + 3 < 256)
    (hn : regs a = .integer n) (hlimit : regs (a + 1) = .integer limit)
    (hstep : regs (a + 2) = .integer step) (hadd : A.add n step = some next)
    (hin : withinLimit next limit step = true) :
    S.Reaches A ⟨pc, regs, g⟩ ⟨target,
      Function.update (Function.update regs a (.integer next)) (a + 3) (.integer next), g⟩ := by
  refine h.2.reaches (Instruction.opcode?_asbx ..) ?_
  have hoffset := Instruction.offset_asbx .forLoop a h.1
  have hpc : (pc : Int) + 1 + (target - pc - 1) = target := by omega
  have ha' : a % 256 = a := by omega
  have hlt : a < 256 ∧ a + 1 < 256 ∧ a + 2 < 256 := by omega
  simp [exec, State.integer?, State.register?, State.set, State.jump?, Value.integer?, ha', ha, hlt,
    hn, hlimit, hstep, hadd, hin, hoffset, hpc]

/-- A loop ends. -/
theorem Site.Jumps.forLoop_done {step : Int64} (h : S.Jumps .forLoop pc a target) (ha : a + 3 < 256)
    (hn : regs a = .integer n) (hlimit : regs (a + 1) = .integer limit)
    (hstep : regs (a + 2) = .integer step) (hadd : A.add n step = some next)
    (hpast : withinLimit next limit step = false) :
    S.Reaches A ⟨pc, regs, g⟩ ⟨pc + 1, Function.update regs a (.integer next), g⟩ := by
  refine h.2.reaches (Instruction.opcode?_asbx ..) ?_
  have ha' : a % 256 = a := by omega
  have hlt : a < 256 ∧ a + 1 < 256 ∧ a + 2 < 256 := by omega
  simp [exec, State.integer?, State.register?, State.set, State.skip, Value.integer?, ha', hlt,
    hn, hlimit, hstep, hadd, hpast]

theorem Site.Has.ret {n : Nat} (h : S.Has pc (.abc .ret a (n + 1) 0)) (ha : a + n ≤ 256)
    (hlt : a < 256) :
    S.Halts A ⟨pc, regs, g⟩ ((List.range n).map fun k => regs (a + k)) g := by
  have ha' : a % 256 = a := by omega
  have hn : (n + 1) % 512 = n + 1 := by omega
  refine ⟨_, .refl, (h.step_eq (Instruction.opcode?_abc ..)).trans ?_⟩
  simp [exec, ha', hn]
  omega

end LuaLowering
