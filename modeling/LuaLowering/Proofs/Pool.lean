import LuaLowering.Proofs.Surroundings
import LuaLowering.Proofs.Words

/-!
# What the constant pool gives back

A literal is put into the pool once and found again by comparison. The comparison is
that of numbers, under which the two zeros are equal, and so a zero may be given the
entry of the other one. That is the only way in which a literal can change: everything
else comes back bit for bit, every NaN included, which equals nothing and has an entry
of its own each time.

`Stands` says what the pool gives for a constant. The rest follows the index from there:
entries never move, so it denotes the same constant in the finished function, and the
instruction or operand that carries it is wide enough to be read back.
-/

namespace LuaLowering

open LowerM

variable {x : Binary64} {c k : Constant} {w : Workspace} {d : Draft} {pc a i : Nat}

/-! ## Comparing constants -/

theorem Binary64.isNaN_of_isZero (h : x.isZero = true) : x.isNaN = false := by
  rw [isZero, decide_eq_true_eq] at h
  have hfraction : x.fractionField = 0 := by
    rw [fractionField]
    omega
  simp [isNaN, hfraction]

/-- Numbers are equal if they are the same one, or the two zeros. -/
theorem Binary64.numEq_iff {y : Binary64} :
    x.numEq y = true ↔
      x = y ∧ y.isNaN = false ∨ x.isZero = true ∧ y.isZero = true ∧ x ≠ y := by
  have hbits : (x.bits == y.bits) = true ↔ x = y := by
    cases x
    cases y
    simp
  by_cases hxy : x = y
  · subst hxy
    cases hnan : x.isNaN <;> simp [numEq, hnan]
  · rw [numEq]
    constructor
    · intro h
      simp only [Bool.and_eq_true, Bool.or_eq_true, hbits, hxy, false_or] at h
      exact Or.inr ⟨h.2.1, h.2.2, hxy⟩
    · rintro (⟨h, -⟩ | ⟨hx, hy, -⟩)
      · exact absurd h hxy
      · simp [isNaN_of_isZero hx, isNaN_of_isZero hy, hx, hy]

namespace Constant

def isNaN : Constant → Bool
  | .float x => x.isNaN
  | _ => false

/-- The two constants are the two float zeros. -/
def OppositeZeros (c k : Constant) : Prop :=
  ∃ x y : Binary64, c = .float x ∧ k = .float y ∧ x.isZero = true ∧ y.isZero = true ∧ x ≠ y

theorem same_iff : c.same k = true ↔ c = k ∧ k.isNaN = false ∨ c.OppositeZeros k := by
  cases c with
  | float x =>
    cases k with
    | float y => simp [Constant.same, Binary64.numEq_iff, isNaN, OppositeZeros]
    | _ => simp [Constant.same, OppositeZeros]
  | _ => cases k <;> simp [Constant.same, isNaN, OppositeZeros]

theorem OppositeZeros.ne (h : c.OppositeZeros k) : c ≠ k := by
  obtain ⟨x, y, rfl, rfl, -, -, hne⟩ := h
  exact fun heq => hne (Constant.float.inj heq)

/-- What a pool gives for a constant: the constant itself, unless it is a zero and the
other zero came first. -/
def Stands (c : Constant) (pool : Array Constant) (k : Constant) : Prop :=
  c = k ∧ (∀ z ∈ pool, ¬ z.OppositeZeros k) ∨ c ∈ pool ∧ c.OppositeZeros k

end Constant

/-! ## Asking for an index -/

/-- The index of a constant `k`, asked for in `w`, denotes `c` in `w'`. -/
structure Workspace.Pools (w : Workspace) (k : Constant) (i : Nat) (c : Constant)
    (w' : Workspace) : Prop where
  entry : w'.draft.constants[i]? = some c
  stands : c.Stands w.draft.constants k

/-- An index is always given. Asking changes nothing but the pool. -/
theorem constantIndex_pools
    (hpool : Distinct (fun a b : Constant => a.same b = true) w.draft.constants) (k : Constant) :
    ∃ i c constants, constantIndex k w = .ok i { w with draft := { w.draft with constants } } ∧
      w.Pools k i c { w with draft := { w.draft with constants } } := by
  cases hfound : w.draft.constants.toList.findIdx? (·.same k) with
  | some i =>
    have hrun : constantIndex k w = .ok i w := by
      rw [constantIndex, view_bind_run, hfound]
      rfl
    obtain ⟨hlt, hsame, -⟩ := List.findIdx?_eq_some_iff_getElem.mp hfound
    have hi : w.draft.constants[i]? = some w.draft.constants[i] :=
      Array.getElem?_eq_getElem hlt
    refine ⟨i, w.draft.constants[i], w.draft.constants, hrun, hi, ?_⟩
    rcases Constant.same_iff.mp hsame with ⟨heq, -⟩ | hzero
    · refine Or.inl ⟨heq, fun z hz hopp => hopp.ne ?_⟩
      obtain ⟨j, hj⟩ := Array.getElem?_of_mem hz
      have hsame' : z.same w.draft.constants[i] = true := by
        rw [show w.draft.constants[i] = k from heq]
        exact Constant.same_iff.mpr (Or.inr hopp)
      obtain rfl := hpool j i _ _ hj hi hsame'
      exact (Option.some.inj (hj.symm.trans hi)).trans heq
    · exact Or.inr ⟨Array.getElem_mem hlt, hzero⟩
  | none =>
    refine ⟨w.draft.constants.size, k, w.draft.constants.push k, ?_, ?_, ?_⟩
    · rw [constantIndex, view_bind_run, hfound]
      rfl
    · exact Array.getElem?_push_size
    · refine Or.inl ⟨rfl, fun z hz hopp => ?_⟩
      have hne := List.findIdx?_eq_none_iff.mp hfound z (Array.mem_toList_iff.mpr hz)
      rw [Constant.same_iff.mpr (Or.inr hopp)] at hne
      cases hne

/-! ## Literals in instructions -/

/-- The register that the instruction at a position loads a constant into, and the
constant. -/
def Draft.loadAt? (d : Draft) (pc : Nat) : Option (Nat × Constant) := do
  let i ← d.code[pc]?
  match i.opcode? with
  | some .loadK => (d.constants[i.bx]?).map (i.a, ·)
  | some .loadKx =>
    let arg ← d.code[pc + 1]?
    if arg.opcode? = some .extraArg then (d.constants[arg.axField]?).map (i.a, ·) else none
  | _ => none

/-- The constant that a field of nine bits reads, if it is not a register. -/
def Draft.constantOf? (d : Draft) (field : Nat) : Option Constant :=
  if Instruction.isConstant field then d.constants[field % 0x100]? else none

theorem Draft.loadAt?_short (hcode : d.code[pc]? = some (.abx .loadK a i))
    (hi : i ≤ Instruction.maxBx) : d.loadAt? pc = (d.constants[i]?).map (a % 0x100, ·) := by
  have hbx : i % 0x40000 = i := Nat.mod_eq_of_lt (Nat.lt_succ_of_le hi)
  simp [Draft.loadAt?, hcode, hbx]

theorem Draft.loadAt?_long (hcode : d.code[pc]? = some (.abx .loadKx a 0))
    (harg : d.code[pc + 1]? = some (.ax .extraArg i)) (hi : i < 0x4000000) :
    d.loadAt? pc = (d.constants[i]?).map (a % 0x100, ·) := by
  simp [Draft.loadAt?, hcode, harg, Nat.mod_eq_of_lt hi]

/-- A load that is written reads back the constant that the pool gave, as long as the
pool has no more entries than an index of 26 bits can tell apart. -/
theorem loadConstant_loads
    (hpool : Distinct (fun a b : Constant => a.same b = true) w.draft.constants) (line a : Nat)
    (k : Constant) :
    ∃ c w', Emit.loadConstant line a k w = .ok () w' ∧ c.Stands w.draft.constants k ∧
      (w'.draft.constants.size ≤ 0x4000000 →
        w'.draft.loadAt? w.draft.pc = some (a % 0x100, c)) := by
  obtain ⟨i, c, constants, hrun, hentry, hstands⟩ := constantIndex_pools hpool k
  generalize hw₁ : { w with draft := { w.draft with constants } } = w₁ at hrun hentry
  have hcode : w₁.draft.code = w.draft.code := by rw [← hw₁]
  have hlt := (Array.getElem?_eq_some_iff.mp hentry).1
  have hload : Emit.loadConstant line a k w =
      (if i ≤ Instruction.maxBx then do
          let _ ← Emit.abx line .loadK a i
        else do
          let _ ← Emit.abx line .loadKx a 0
          let _ ← emit line (.ax .extraArg i) : LowerM Unit) w₁ := by
    show EStateM.bind (constantIndex k) _ w = _
    rw [EStateM.bind, hrun]
  split at hload
  · next hle =>
    refine ⟨c, { w₁ with draft := w₁.draft.emit line (.abx .loadK a i) }, hload, hstands,
      fun _ => ?_⟩
    rw [Draft.loadAt?_short (i := i) (a := a) _ hle]
    · exact congrArg _ hentry
    · rw [Draft.pc, ← hcode]
      exact Array.getElem?_push_size
  · let short := w₁.draft.emit line (.abx .loadKx a 0)
    refine ⟨c, { w₁ with draft := short.emit line (.ax .extraArg i) }, hload, hstands,
      fun hsize => ?_⟩
    have hfirst : short.code[w.draft.pc]? = some (.abx .loadKx a 0) := by
      rw [Draft.pc, ← hcode]
      exact Array.getElem?_push_size
    rw [Draft.loadAt?_long (i := i) (a := a) _ _ (Nat.lt_of_lt_of_le hlt hsize)]
    · exact congrArg _ hentry
    · exact Keeps.push _ _ _ _ hfirst
    · have hsecond : short.code.size = w.draft.pc + 1 := by
        rw [Draft.pc, ← hcode]
        exact Array.size_push _
      rw [← hsecond]
      exact Array.getElem?_push_size

/-- The literals that are neither nil nor a boolean are loaded from the pool. -/
theorem Expr.lower_literal {e : Expr} (hk : e.literal? = some k) (hnil : e ≠ .nil)
    (hbool : ∀ b, e ≠ .boolean b) (a : Nat) (want : Int) (w : Workspace) :
    e.lower a want w = Emit.loadConstant w.draft.line a k w := by
  cases e with
  | nil => exact absurd rfl hnil
  | boolean b => exact absurd rfl (hbool b)
  | integer | float | string =>
    cases hk
    rw [Expr.lower]
    rfl
  | _ => cases hk

theorem constantOperand?_pools
    (hpool : Distinct (fun a b : Constant => a.same b = true) w.draft.constants) (e : Expr) :
    Ensures False (constantOperand? e) w fun o w' => ∀ i, o = some (.constant i) →
      i ≤ w.options.constantLimit ∧ ∃ k c, e.literal? = some k ∧ w.Pools k i c w' := by
  rw [constantOperand?]
  split
  · exact fun i hi => by cases hi
  · next k hk =>
    obtain ⟨j, c, constants, hrun, hpools⟩ := constantIndex_pools hpool k
    have hindex : Ensures False (constantIndex k) w fun i w' =>
        i = j ∧ w'.options = w.options ∧ w.Pools k j c w' := by
      rw [Ensures, hrun]
      exact ⟨rfl, rfl, hpools⟩
    refine hindex.bind fun i w₁ h => ?_
    obtain ⟨rfl, hoptions, hpools⟩ := h
    rw [ensures_options_bind, ensures_pure]
    intro i' hi'
    split at hi'
    · next hle =>
      cases hi'
      exact ⟨hoptions ▸ hle, k, c, hk, hpools⟩
    · cases hi'

theorem nameOperand?_ne_constant (e : Expr) (kinds : OperandKinds) (w : Workspace) :
    Ensures False (nameOperand? e kinds) w fun o _ => ∀ i, o ≠ some (.constant i) := by
  unfold nameOperand?
  split
  · refine (ensures_true _ w).bind fun r w₁ _ => ?_
    cases r with
    | some r => exact fun i hi => by cases hi
    | none =>
      refine (ensures_true _ w₁).bind fun u w₂ _ => ?_
      cases u with
      | some u => exact fun i hi => by cases hi
      | none => exact fun i hi => by cases hi
  · exact fun i hi => by cases hi

/-- An operand that is a constant is a literal's entry, within the reach of operands. -/
theorem operand_pools (hpool : Distinct (fun a b : Constant => a.same b = true) w.draft.constants)
    (s : Source) (kinds : OperandKinds) :
    Ensures False (operand s kinds) w fun o w' => ∀ i, o = .constant i →
      i ≤ w.options.constantLimit ∧ ∃ k c, s.exp.literal? = some k ∧ w.Pools k i c w' := by
  have hconstant : Ensures False (if kinds.constants then constantOperand? s.exp else pure none) w
      fun o w' => ∀ i, o = some (.constant i) →
        i ≤ w.options.constantLimit ∧ ∃ k c, s.exp.literal? = some k ∧ w.Pools k i c w' := by
    split
    · exact constantOperand?_pools hpool s.exp
    · exact fun i hi => by cases hi
  refine hconstant.bind fun o w₁ h => ?_
  cases o with
  | some o => exact fun i hi => h i (congrArg some hi)
  | none =>
    refine (nameOperand?_ne_constant s.exp kinds w₁).bind fun o w₂ h => ?_
    cases o with
    | some o => exact fun i hi => absurd (congrArg some hi) (h i)
    | none =>
      refine (ensures_true _ w₂).bind fun r w₃ _ => (ensures_true _ w₃).bind fun _ w₄ _ => ?_
      exact fun i hi => by cases hi

/-- The field of a constant within the width of a field reads that constant. -/
theorem Draft.constantOf?_field (h : i < 0x100) :
    d.constantOf? ((Operand.constant i).field % 0x200) = d.constants[i]? := by
  have hfield : (Operand.constant i).field % 0x200 = i + 0x100 := by
    rw [Operand.field, Instruction.constantField_of_lt h]
    omega
  have hconst : Instruction.isConstant (i + 0x100) = true := by
    rw [Instruction.isConstant, decide_eq_true_eq]
    omega
  rw [hfield, constantOf?, if_pos hconst, Nat.add_mod_right, Nat.mod_eq_of_lt h]

/-! ## Literals from the source to the finished function -/

/-- What becomes of literals in a workspace. -/
structure Workspace.KeepsLiterals (w : Workspace) : Prop where
  /-- No pool has an entry twice, a NaN apart, and none has both zeros. -/
  distinct : ∀ d ∈ w.stack,
    Distinct (fun a b : Constant => a = b ∧ b.isNaN = false ∨ a.OppositeZeros b) d.constants
  /-- Whatever is done next, the entries of all pools stay where and what they are. -/
  kept : ∀ w', History w w' →
    List.Forall₂ (fun d d' : Draft => Keeps d.constants d'.constants) w.stack w'.stack
  /-- A constant always gets an index. It denotes what the pool gives for the constant, now
  and in the finished function. -/
  index : ∀ k, ∃ i c w', constantIndex k w = .ok i w' ∧ c.Stands w.draft.constants k ∧
    w'.draft.constants[i]? = some c ∧
    ∀ w'' o, History w' w'' → (w''.draft.finish o).constants[i]? = some c
  /-- So does the instruction that loads a number or a string, unless the pool is too large
  for it. -/
  loads : ∀ (e : Expr) (k : Constant) (a : Nat) (want : Int), e.literal? = some k → e ≠ .nil →
    (∀ b, e ≠ .boolean b) → ∃ c w', e.lower a want w = .ok () w' ∧ c.Stands w.draft.constants k ∧
      (w'.draft.constants.size ≤ 0x4000000 →
        w'.draft.loadAt? w.draft.pc = some (a % 0x100, c))
  /-- And so does an operand that is a constant, as either field of an instruction. -/
  operands : w.options.constantLimit < 0x100 → ∀ (e : Expr) (kinds : OperandKinds) i w',
    operand e.source kinds w = .ok (.constant i) w' →
    ∃ k c, e.literal? = some k ∧ c.Stands w.draft.constants k ∧ ∀ op a x,
      w'.draft.constantOf? (Instruction.abc op a (Operand.constant i).field x).b = some c ∧
      w'.draft.constantOf? (Instruction.abc op a x (Operand.constant i).field).c = some c

/-- The pools of all functions keep literals: each comes back as it is, except that a zero
may come back as the other one. -/
theorem literals_kept {o : Options} {w : Workspace} (h : Reachable o w) : w.KeepsLiterals where
  distinct := fun d hd i j a b ha hb hab =>
    (h.sound.drafts d hd).constants i j a b ha hb (Constant.same_iff.mpr hab)
  kept := fun w' hist => .cons hist.worksOn.constants
    (hist.worksOn.around.imp fun _ _ hmarked => hmarked.constants ▸ .refl _)
  index := fun k => by
    have hpool := (h.sound.drafts _ List.mem_cons_self).constants
    obtain ⟨i, c, constants, hrun, hpools⟩ := constantIndex_pools hpool k
    exact ⟨i, c, _, hrun, hpools.stands, hpools.entry,
      fun w'' o' hist => hist.worksOn.constants i c hpools.entry⟩
  loads := fun e k a want hk hnil hbool => by
    have hpool := (h.sound.drafts _ List.mem_cons_self).constants
    obtain ⟨c, w', hrun, hc⟩ := loadConstant_loads hpool w.draft.line a k
    exact ⟨c, w', (e.lower_literal hk hnil hbool a want w).trans hrun, hc⟩
  operands := fun hlimit e kinds i w' hrun => by
    have hpool := (h.sound.drafts _ List.mem_cons_self).constants
    obtain ⟨hle, k, c, hk, hpools⟩ := (operand_pools hpool e.source kinds).of_ok hrun i rfl
    refine ⟨k, c, hk, hpools.stands, fun op a x => ?_⟩
    rw [Instruction.b_abc, Instruction.c_abc,
      Draft.constantOf?_field (Nat.lt_of_le_of_lt hle hlimit)]
    exact ⟨hpools.entry, hpools.entry⟩

/-- After the zero has been used as a literal, its opposite is loaded as the zero. -/
theorem literals_kept_of_zeros :
    let zero : Constant := .float ⟨0⟩
    let negative : Expr := .float ⟨0x8000000000000000⟩
    ∃ w w', (Expr.float ⟨0⟩).lower 0 1 (.main {}) = .ok () w ∧ w.KeepsLiterals ∧
      negative.lower 1 1 w = .ok () w' ∧ w'.draft.constants = #[zero] ∧
      w'.draft.loadAt? 1 = some (1, zero) := by
  intro zero negative
  have hrun : (match (Expr.float ⟨0⟩).lower 0 1 (.main {}) with
      | .ok _ w =>
        match negative.lower 1 1 w with
        | .ok _ w' => decide (w'.draft.constants = #[zero] ∧ w'.draft.loadAt? 1 = some (1, zero))
        | _ => false
      | _ => false) = true := by decide +kernel
  cases hzero : (Expr.float ⟨0⟩).lower 0 1 (.main {}) with
  | error e w =>
    rw [hzero] at hrun
    cases hrun
  | ok u w =>
    rw [hzero] at hrun
    dsimp only at hrun
    have hreach : Reachable {} w := .history .main ((History.start _).finished (.expr _ 0 1) hzero)
    split at hrun
    · next w' hnegative =>
      have hends := of_decide_eq_true hrun
      exact ⟨w, w', rfl, literals_kept hreach, hnegative, hends.1, hends.2⟩
    · cases hrun

end LuaLowering
