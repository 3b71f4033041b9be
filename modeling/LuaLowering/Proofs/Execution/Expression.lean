import LuaLowering.Proofs.Execution.Registers
import LuaLowering.Proofs.Execution.Stepping

/-!
# The code of expressions computes their values

Run from its first instruction, the code of an expression leaves the value in the
register that was asked for and every other register in use as it was. Temporaries
go above the registers in use, so locals and the operands loaded before are safe.
-/

namespace LuaLowering

open Machine

/-- A finished chunk that the machine can run: no function is around it, its one
upvalue is the table of globals, and its constants are within the reach of the
instructions that load them. -/
structure Site.Chunk (S : Site) : Prop where
  outer : S.outer = []
  upvalues : ∀ c ∈ S.draft.upvalues, c.name = "_ENV"
  registers : S.options.registerLimit ≤ 255
  reach : S.options.constantLimit ≤ 255
  pool : S.draft.constants.size ≤ 0x40000

variable {A : Arithmetic} {S : Site} {hidden regs : Nat → Value} {opened : List Nat} {m : Memory}
  {a used : Nat} {lo hi : Mark} {v : Value} {x : String} {k : Constant} {o : Operand} {used' : Nat}
  {g : Globals} {e : Expr} {p left right : Part} {op : BinaryOp} {l r : Value}

namespace Site.Chunk

theorem room (hS : S.Chunk) {n : Nat} (h : S.Room n) : n ≤ 255 :=
  Nat.le_trans h.1 hS.registers

/-- The only upvalue is the table of globals. -/
theorem upvalue (hS : S.Chunk) {u : Nat} (h : S.Upvalue u x) : x = "_ENV" := by
  obtain ⟨-, hden⟩ := h
  rw [hS.outer] at hden
  obtain ⟨c, hc, rfl⟩ := hden
  exact hS.upvalues c (Array.mem_of_getElem? hc)

end Site.Chunk

/-! ## Constants -/

/-- Constants that share an entry have one value. -/
theorem Constant.eq_of_same {c : Constant} (h : c.same k = true)
    (hk : Value.ofConstant? k = some v) : c = k := by
  cases c <;> cases k <;> simp_all [Constant.same, Value.ofConstant?]

theorem Site.Pool.value {i : Nat} (h : S.Pool i k) (hk : Value.ofConstant? k = some v) :
    ∃ c, S.draft.constants[i]? = some c ∧ Value.ofConstant? c = some v := by
  obtain ⟨c, hc, rfl | hsame⟩ := h
  · exact ⟨c, hc, hk⟩
  · obtain rfl := Constant.eq_of_same hsame hk
    exact ⟨c, hc, hk⟩

theorem ConstantIs.runs (hS : S.Chunk) (h : ConstantIs S k a lo hi) (ha : a < 256)
    (hk : Value.ofConstant? k = some v) (g : Globals) :
    S.Reaches A ⟨lo.pc, regs, g⟩ ⟨hi.pc, Function.update regs a v, g⟩ := by
  obtain ⟨i, hpool, ⟨hle, hcode, rfl⟩ | ⟨hgt, -⟩⟩ := h
  · obtain ⟨c, hc, hv⟩ := hpool.value hk
    have hi : i < 0x40000 := Nat.lt_succ_of_le hle
    exact hcode.loadK ha hi hc hv
  · -- such an index is beyond the pool
    obtain ⟨c, hc, -⟩ := hpool
    have hlt := (Array.getElem?_eq_some_iff.mp hc).1
    have hsize := hS.pool
    simp only [Instruction.maxBx] at hgt
    omega

/-! ## Operands -/

/-- An operand can be read: a register in use that holds the value, or a constant
within reach that is the value. -/
def Operand.Carries (S : Site) (regs : Nat → Value) (used : Nat) : Operand → Value → Prop
  | .register r, v => r < used ∧ regs r = v
  | .constant i, v => i ≤ 255 ∧ ∃ c, S.draft.constants[i]? = some c ∧ Value.ofConstant? c = some v
  | .upvalue _, _ => False

namespace Operand.Carries

theorem field (h : o.Carries S regs used v) (hused : used ≤ 255) : S.Field regs o.field v := by
  cases o with
  | register r => exact Or.inl ⟨by have := h.1; show r < 256; omega, h.2⟩
  | constant i =>
    obtain ⟨hle, c, hc, hv⟩ := h
    exact Or.inr ⟨i, c, Instruction.constantField_of_lt (by omega), by omega, hc, hv⟩
  | upvalue => exact h.elim

theorem keep {regs' : Nat → Value} (h : o.Carries S regs used v)
    (hregs : ∀ r < used, regs' r = regs r) (hle : used ≤ used') : o.Carries S regs' used' v := by
  cases o with
  | register r => exact ⟨Nat.lt_of_lt_of_le h.1 hle, (hregs r h.1).trans h.2⟩
  | constant => exact h
  | upvalue => exact h.elim

end Operand.Carries

/-- The code of a part leaves its value in a register in use, and the others in
use as they were. -/
def Part.Computes (A : Arithmetic) (S : Site) (p : Part) : Prop :=
  ∀ ⦃hidden regs : Nat → Value⦄ ⦃opened : List Nat⦄ ⦃m : Memory⦄ ⦃a used : Nat⦄ ⦃lo hi : Mark⦄
    ⦃v : Value⦄, p.shape S opened a 1 used lo hi → Holds S hidden regs opened m.locals →
    opened.length ≤ a → a < used → used ≤ 255 → p.exp.eval A m = some v →
    ∃ regs', S.Reaches A ⟨lo.pc, regs, m.globals⟩ ⟨hi.pc, regs', m.globals⟩ ∧ regs' a = v ∧
      ∀ r < used, r ≠ a → regs' r = regs r

/-- Setting one register is enough. -/
theorem exists_of_update {s : State} {pc : Nat} (used : Nat)
    (h : S.Reaches A s ⟨pc, Function.update regs a v, g⟩) :
    ∃ regs', S.Reaches A s ⟨pc, regs', g⟩ ∧ regs' a = v ∧ ∀ r < used, r ≠ a → regs' r = regs r :=
  ⟨_, h, Function.update_self _ _ _, fun _ _ hne => Function.update_of_ne hne _ _⟩

theorem Part.constant_computes (hS : S.Chunk) (he : ∀ m, e.eval A m = Value.ofConstant? k) :
    (Part.constant e k).Computes A S := by
  intro hidden regs opened m a used lo hi v h _ _ ha hused hv
  rw [Part.constant, he] at hv
  exact exists_of_update _ (h.runs hS (by omega) hv _)

theorem Part.string_computes (hS : S.Chunk) (s : String) : (Part.string s).Computes A S :=
  Part.constant_computes hS fun _ => rfl

theorem Expr.eval_of_literal? (he : e.FirstOrder) (h : e.literal? = some k) :
    e.eval A m = Value.ofConstant? k := by
  cases e <;> simp_all [Expr.literal?, Expr.eval, Expr.FirstOrder] <;> cases h <;> rfl

/-- A first-order operand is where its instruction looks for it. -/
theorem OperandIs.runs {kinds : OperandKinds} (hS : S.Chunk) (hp : p.Computes A S)
    (hfirst : p.exp.FirstOrder) (h : OperandIs S opened p kinds used lo o used' hi)
    (hm : Holds S hidden regs opened m.locals) (hlen : opened.length ≤ used) (hused : used ≤ 255)
    (hup : kinds.upvalues = false) (hv : p.exp.eval A m = some v) :
    ∃ regs', S.Reaches A ⟨lo.pc, regs, m.globals⟩ ⟨hi.pc, regs', m.globals⟩ ∧
      o.Carries S regs' used' v ∧ (∀ r < used, regs' r = regs r) ∧ used ≤ used' ∧ used' ≤ 255 := by
  cases h with
  | @constant k i _ hlit hpool hreach =>
    rw [Expr.eval_of_literal? hfirst hlit] at hv
    have hle : i ≤ 255 := Nat.le_trans hreach hS.reach
    exact ⟨regs, .refl, ⟨hle, hpool.value hv⟩, fun _ _ => rfl, le_rfl, hused⟩
  | @register x w _ hname hlocal =>
    rw [hname] at hfirst hv
    have hlt := hm.slot_lt hlocal
    have hval : regs w.slot = v := by
      simpa [Expr.eval, Memory.read, hm.lookup_eq hfirst, hlocal] using hv
    exact ⟨regs, .refl, ⟨by omega, hval⟩, fun _ _ => rfl, le_rfl, hused⟩
  | upvalue hkind _ _ _ =>
    rw [hup] at hkind
    cases hkind
  | fresh hroom hload =>
    have hle := hS.room hroom
    obtain ⟨regs', hrun, hval, hkeep⟩ := hp hload hm hlen (Nat.lt_succ_self _) hle hv
    exact ⟨regs', hrun, ⟨Nat.lt_succ_self _, hval⟩,
      fun r hr => hkeep r (by omega) (by omega), Nat.le_succ _, hle⟩

/-- An operand that may only be a register is one. -/
theorem OperandIs.register_of (h : OperandIs S opened p .register used lo o used' hi) :
    ∃ r, o = .register r := by
  cases h with
  | constant hkind => cases hkind
  | register => exact ⟨_, rfl⟩
  | upvalue hkind => cases hkind
  | fresh => exact ⟨_, rfl⟩

/-! ## Names and operators -/

/-- The globals are an upvalue where no local stands for them. -/
theorem GlobalsAre.upvalue_of {env : Operand} (h : GlobalsAre S opened env)
    (hm : Holds S hidden regs opened m.locals) : ∃ u, env = .upvalue u := by
  cases h with
  | register hlocal =>
    rw [hm.globals_none] at hlocal
    cases hlocal
  | upvalue => exact ⟨_, rfl⟩

theorem NameIs.runs (hS : S.Chunk) (hx : PlainName x) (h : NameIs S opened x a used lo hi)
    (hm : Holds S hidden regs opened m.locals) (hlen : opened.length ≤ a) (ha : a < used)
    (hused : used ≤ 255) :
    ∃ regs', S.Reaches A ⟨lo.pc, regs, m.globals⟩ ⟨hi.pc, regs', m.globals⟩ ∧
      regs' a = m.read x ∧ ∀ r < used, r ≠ a → regs' r = regs r := by
  have hlookup := hm.lookup_eq hx
  cases h with
  | @register w hlocal hcode =>
    obtain ⟨hcode, rfl⟩ := hcode
    have hlt := hm.slot_lt hlocal
    have hread : m.read x = regs w.slot := by simp [Memory.read, hlookup, hlocal]
    rw [hread]
    exact exists_of_update _ (hcode.move (by omega) (by omega))
  | upvalue _ hup _ => exact absurd (hS.upvalue hup) hx.1
  | @global env key used' mid hlocal _ henv hkey hcode =>
    obtain ⟨hcode, rfl⟩ := hcode
    have hread : m.read x = m.globals.read x := by simp [Memory.read, hlookup, hlocal]
    rw [hread]
    obtain ⟨regs₁, hrun, hcarry, hkeep, hle, hle'⟩ :=
      hkey.runs hS (Part.string_computes hS x) trivial hm (by omega) hused rfl rfl
    obtain ⟨u, rfl⟩ := henv.upvalue_of hm
    obtain ⟨regs', hload, hval, hkeep'⟩ := exists_of_update used
      (hcode.getTabUp (A := A) (g := m.globals) (by omega) (hcarry.field hle'))
    exact ⟨regs', hrun.trans hload, hval, fun r hr hne => (hkeep' r hr hne).trans (hkeep r hr)⟩

theorem ShortCircuitIs.runs {keep : Nat} {u : Value} (hS : S.Chunk) (hl : left.Computes A S)
    (hr : right.Computes A S) (hlf : left.exp.FirstOrder) (hrf : right.exp.FirstOrder)
    (h : ShortCircuitIs S opened keep left right a used lo hi)
    (hm : Holds S hidden regs opened m.locals) (hlen : opened.length ≤ a) (ha : a < used)
    (hused : used ≤ 255) (hkeep : keep < 512) (hu : left.exp.eval A m = some u)
    (hv : if u.truthy = (keep != 0) then v = u else right.exp.eval A m = some v) :
    ∃ regs', S.Reaches A ⟨lo.pc, regs, m.globals⟩ ⟨hi.pc, regs', m.globals⟩ ∧ regs' a = v ∧
      ∀ r < used, r ≠ a → regs' r = regs r := by
  obtain ⟨b, c, used₁, used₂, mid₁, mid₂, hleft, ⟨htest, -⟩, hjump, hright, hmove, rfl⟩ := h
  obtain ⟨b, rfl⟩ := hleft.register_of
  obtain ⟨c, rfl⟩ := hright.register_of
  obtain ⟨regs₁, hrun₁, ⟨hb, rfl⟩, hkeep₁, -, hle₁⟩ :=
    hleft.runs hS hl hlf hm (by omega) hused rfl hu
  split at hv
  · next hkept =>
    subst hv
    obtain ⟨regs', hreach, hval, hsame⟩ := exists_of_update used
      ((htest.testSet (A := A) (g := m.globals) (by omega) (by show b < 256; omega) hkeep
        hkept).trans hjump.reaches)
    exact ⟨regs', hrun₁.trans hreach, hval, fun r hr hne => (hsame r hr hne).trans (hkeep₁ r hr)⟩
  · next hother =>
    have hskip := htest.testSet_skip (A := A) (g := m.globals) (by show b < 256; omega) hkeep hother
    have hm₁ := hm.frame fun r hr => hkeep₁ r (by omega)
    obtain ⟨regs₂, hrun₂, ⟨hc, rfl⟩, hkeep₂, -, hle₂⟩ :=
      hright.runs hS hr hrf hm₁ (by omega) hused rfl hv
    obtain ⟨regs', hreach, hval, hsame⟩ := exists_of_update used
      (hmove.move (A := A) (g := m.globals) (by omega) (by show c < 256; omega))
    refine ⟨regs', ((hrun₁.trans hskip).trans hrun₂).trans hreach, hval, fun r hr hne => ?_⟩
    rw [hsame r hr hne, hkeep₂ r hr, hkeep₁ r hr]

/-- Operands in place are combined. -/
theorem CombinedIs.runs {b c : Nat} (h : CombinedIs S op a b c lo hi) (ha : a < 256)
    (hb : S.Field regs b l) (hc : S.Field regs c r) (hv : op.result? A l r = some v) :
    S.Reaches A ⟨lo.pc, regs, g⟩ ⟨hi.pc, Function.update regs a v, g⟩ := by
  cases hcode : Emit.arithmetic? op with
  | some code =>
    simp only [CombinedIs, hcode] at h
    obtain ⟨hhas, rfl⟩ := h
    exact hhas.arithmetic hcode ha hb hc hv
  | none =>
    cases htest : Emit.comparison? op b c with
    | none =>
      cases op <;> simp [Emit.arithmetic?, Emit.comparison?, BinaryOp.result?] at hcode htest hv
    | some test =>
      obtain ⟨code, outcome, left, right⟩ := test
      simp only [CombinedIs, hcode, htest] at h
      obtain ⟨⟨hhas, -⟩, hjump, ⟨hfalse, -⟩, htrue, rfl⟩ := h
      obtain ⟨holds, rfl⟩ : ∃ holds, v = .boolean holds := BinaryOp.boolean_of_comparison htest hv
      have hcompare := hhas.comparison (A := A) (g := g) htest hb hc hv
      cases holds with
      | false =>
        exact hcompare.trans (hfalse.loadBool ha (by omega) (by omega))
      | true =>
        have hskip : S.Jumps .jmp lo.next.pc 0 (lo.next.pc + 2) :=
          hjump.jumps (by omega) (by decide)
        exact (hcompare.trans hskip.reaches).trans (htrue.loadBool ha (by omega) (by omega))

theorem StrictIs.runs (hS : S.Chunk) (hl : left.Computes A S) (hr : right.Computes A S)
    (hlf : left.exp.FirstOrder) (hrf : right.exp.FirstOrder)
    (h : StrictIs S opened op left right a used lo hi) (hm : Holds S hidden regs opened m.locals)
    (hlen : opened.length ≤ a) (ha : a < used) (hused : used ≤ 255)
    (hlv : left.exp.eval A m = some l) (hrv : right.exp.eval A m = some r)
    (hv : op.result? A l r = some v) :
    ∃ regs', S.Reaches A ⟨lo.pc, regs, m.globals⟩ ⟨hi.pc, regs', m.globals⟩ ∧ regs' a = v ∧
      ∀ r < used, r ≠ a → regs' r = regs r := by
  obtain ⟨b, c, used₁, used₂, mid₁, mid₂, hleft, hright, hcombine⟩ := h
  obtain ⟨regs₁, hrun₁, hb, hkeep₁, hle₁, hmax₁⟩ :=
    hleft.runs hS hl hlf hm (by omega) hused rfl hlv
  have hm₁ := hm.frame fun r hr => hkeep₁ r (by omega)
  obtain ⟨regs₂, hrun₂, hc, hkeep₂, hle₂, hmax₂⟩ :=
    hright.runs hS hr hrf hm₁ (by omega) hmax₁ rfl hrv
  have hb₂ := hb.keep hkeep₂ hle₂
  obtain ⟨regs', hrun₃, hval, hkeep₃⟩ := exists_of_update used
    (hcombine.runs (A := A) (g := m.globals) (by omega) (hb₂.field hmax₂) (hc.field hmax₂) hv)
  refine ⟨regs', (hrun₁.trans hrun₂).trans hrun₃, hval, fun r hr hne => ?_⟩
  rw [hkeep₃ r hr hne, hkeep₂ r (by omega), hkeep₁ r hr]

theorem Part.binary_computes (hS : S.Chunk) (hl : left.Computes A S) (hr : right.Computes A S)
    (hlf : left.exp.FirstOrder) (hrf : right.exp.FirstOrder) :
    Part.Computes A S ⟨.binary op left.exp right.exp, fun S opened a _ used lo hi =>
      BinaryIs S opened op left right a used lo hi⟩ := by
  intro hidden regs opened m a used lo hi v h hm hlen ha hused hv
  by_cases hand : op = .and
  · subst hand
    obtain ⟨u, hu, hv⟩ := Option.bind_eq_some_iff.mp hv
    refine ShortCircuitIs.runs hS hl hr hlf hrf h hm hlen ha hused (by omega) hu ?_
    cases htruthy : u.truthy <;> simp_all
  by_cases hor : op = .or
  · subst hor
    obtain ⟨u, hu, hv⟩ := Option.bind_eq_some_iff.mp hv
    refine ShortCircuitIs.runs hS hl hr hlf hrf h hm hlen ha hused (by omega) hu ?_
    cases htruthy : u.truthy <;> simp_all
  have hstrict : StrictIs S opened op left right a used lo hi := by
    cases op <;> first | exact h | contradiction
  have hboth : Expr.eval A m (.binary op left.exp right.exp) = (do
      op.result? A (← left.exp.eval A m) (← right.exp.eval A m)) := by
    cases op <;> first | rfl | contradiction
  rw [hboth] at hv
  obtain ⟨l, hlv, hv⟩ := Option.bind_eq_some_iff.mp hv
  obtain ⟨r, hrv, hv⟩ := Option.bind_eq_some_iff.mp hv
  exact hstrict.runs hS hl hr hlf hrf hm hlen ha hused hlv hrv hv

theorem Expr.nil_computes : Part.Computes A S ⟨.nil, Expr.nil.shape⟩ := by
  intro hidden regs opened m a used lo hi v h _ _ ha hused hv
  obtain rfl : Value.nil = v := Option.some.inj hv
  obtain ⟨hcode, rfl⟩ := h
  refine ⟨_, hcode.loadNil ?_, by simp, fun r _ hne => if_neg ?_⟩ <;> omega

theorem Expr.boolean_computes (b : Bool) :
    Part.Computes A S ⟨.boolean b, (Expr.boolean b).shape⟩ := by
  intro hidden regs opened m a used lo hi v h _ _ ha hused hv
  obtain rfl : Value.boolean b = v := Option.some.inj hv
  obtain ⟨hcode, rfl⟩ := h
  refine exists_of_update used ?_
  cases b <;> exact hcode.loadBool (by omega) (by simp) (by omega)

theorem Expr.name_computes (hS : S.Chunk) (hx : PlainName x) :
    Part.Computes A S ⟨.name x, (Expr.name x).shape⟩ := by
  intro hidden regs opened m a used lo hi v h hm hlen ha hused hv
  obtain rfl : m.read x = v := Option.some.inj hv
  exact NameIs.runs hS hx h hm hlen ha hused

/-- Every expression of the fragment. -/
theorem Expr.computes (hS : S.Chunk) : ∀ {e : Expr}, e.FirstOrder → Part.Computes A S ⟨e, e.shape⟩
  | .nil, _ => Expr.nil_computes
  | .boolean b, _ => Expr.boolean_computes b
  | .integer _, _ => Part.constant_computes hS fun _ => rfl
  | .string s, _ => Part.string_computes hS s
  | .name _, hx => Expr.name_computes hS hx
  | .paren inner, he => Expr.computes hS (e := inner) he
  | .binary _ _ _, he =>
    Part.binary_computes hS (Expr.computes hS he.2.1) (Expr.computes hS he.2.2) he.2.1 he.2.2

end LuaLowering
