import LuaLowering.Proofs.Flow.Values

/-!
# Expressions as structured code

The recursion over the syntax puts the cases together. It stops at a nested
function, whose code is its own; here only a closure of it is made.
-/

namespace LuaLowering

variable {S : Site} {proper : Prop} {opened : List Nat} {K : Set Nat} {a : Nat} {lo hi : Mark}

/-- A closure is made of the next nested function. -/
theorem FunctionIs.codes {f : FunctionBody} (hf : proper → f.Every Stat.Iterates)
    (hS : S.Limited) (hroom : S.Room (a + 1)) (h : FunctionIs S opened f.written a lo hi) :
    Code S proper opened K lo hi (loaded K a 1) := by
  obtain ⟨inner, hnested, ⟨hcode, -⟩, rfl, hups, hwritten⟩ := h
  have hmax := hS.peak_le
  have ha : a < S.peak := hroom.2
  have hmod : a % 0x100 = a := Nat.mod_eq_of_lt (by omega)
  have hop := Instruction.opcode?_abx .closure a lo.nested
  have hlt := (Array.getElem?_eq_some_iff.mp hnested).1
  have hbx : lo.nested % 0x40000 < S.draft.nested.size := Nat.lt_of_le_of_lt (Nat.mod_le _ _) hlt
  refine .seq (.closure (.of_opcode hcode hop (by simp) ?_ ?_ ?_ ?_ ?_ ?_)
    ⟨f, inner, hnested, hups, hf, hwritten⟩) (.drop fun r hr => ?_)
  · simp
  · simpa [hmod] using ha
  · simp [Opcode.closes?]
  · simp
  · simp
  · simpa [Opcode.nested?] using hbx
  · have hr' : r ∈ K ∨ r = a := by
      rcases hr with ⟨-, hr⟩ | ⟨hge, hlt⟩
      · exact Or.inl hr
      · exact Or.inr (by omega)
    rw [Instruction.after, Set.mem_ofPred_eq, Instruction.base?_eq hop, Instruction.writes_eq hop,
      Instruction.a_abx, hmod]
    simpa using hr'

mutual

theorem Expr.codes : ∀ e : Expr, (proper → e.Every Stat.Iterates) →
    (Part.mk e e.shape).Codes proper
  | .nil, _ => .single rfl fun S opened K a lo hi hfree hroom h =>
    loadNil_codes (n := 0) hfree.limited hroom (fun _ _ => id) h
  | .boolean b, _ => .single rfl fun S opened K a lo hi hfree hroom h => by
      have hadm : S.Admits .loadBool a (if b then 1 else 0) 0 K :=
        loadBool_admits hfree.limited hroom (by split <;> omega) (by omega)
      exact hadm.load h rfl rfl rfl fun _ _ => id
  | .vararg, _ => fun S opened K a n lo hi hfree hroom hroom' hn _ h =>
    vararg_codes hfree.limited hroom hroom' hn h
  | .integer n, _ => .single rfl fun S opened K a lo hi hfree hroom h =>
    ConstantIs.codes hfree.limited hroom h
  | .float x, _ => .single rfl fun S opened K a lo hi hfree hroom h =>
    ConstantIs.codes hfree.limited hroom h
  | .string s, _ => .single rfl fun S opened K a lo hi hfree hroom h =>
    ConstantIs.codes hfree.limited hroom h
  | .name x, _ => .single rfl fun S opened K a lo hi hfree hroom h =>
    NameIs.codes hfree hroom h
  | .paren inner, hi => .single rfl fun S opened K a lo hi' hfree hroom h =>
    Expr.codes inner hi (n := 1) hfree hroom hroom (by decide) (Or.inr rfl) h
  | .call c, hc => fun S opened K a n lo hi hfree hroom hroom' hn _ h =>
    CallIs.codes (c.callee_codes hc) (c.args_codes hc) hfree hroom hroom' hn h
  | .function f, hf => .single rfl fun S opened K a lo hi hfree hroom h =>
    FunctionIs.codes hf hfree.limited hroom h
  | .table fields, hf => .single rfl fun S opened K a lo hi hfree hroom h =>
    TableIs.codes (Field.parts_codes fields hf) hfree hroom h
  | .index table key, hp => .single rfl fun S opened K a lo hi hfree hroom h =>
    IndexIs.codes (Expr.codes table fun h => (hp h).1) (Expr.codes key fun h => (hp h).2) hfree
      hroom h
  | .unary op e, he => .single rfl fun S opened K a lo hi hfree hroom h =>
    UnaryIs.codes (Expr.codes e he) hfree hroom h
  | .binary op left right, hp => .single rfl fun S opened K a lo hi hfree hroom h =>
    BinaryIs.codes (Expr.codes left fun h => (hp h).1) (Expr.codes right fun h => (hp h).2) hfree
      hroom h
  | .concat operands, hp => .single rfl fun S opened K a lo hi hfree hroom h =>
    ConcatIs.codes (Expr.parts_codes operands hp) hfree hroom h

theorem Expr.parts_codes : ∀ es : List Expr, (proper → Expr.EveryIn Stat.Iterates es) →
    ∀ p ∈ Expr.parts es, p.Codes proper
  | [], _ => by simp [Expr.parts]
  | e :: rest, h => by
      rw [Expr.parts, List.forall_mem_cons]
      exact ⟨Expr.codes e fun hp => (h hp).1, Expr.parts_codes rest fun hp => (h hp).2⟩

theorem Field.parts_codes : ∀ fields : List Field, (proper → Field.Every Stat.Iterates fields) →
    ∀ f ∈ Field.parts fields, f.Codes proper
  | [], _ => by simp [Field.parts]
  | .item value :: rest, h => by
      rw [Field.parts, List.forall_mem_cons]
      exact ⟨Expr.codes value fun hp => (h hp).1, Field.parts_codes rest fun hp => (h hp).2⟩
  | .entry key value :: rest, h => by
      rw [Field.parts, List.forall_mem_cons]
      exact ⟨⟨Expr.codes key fun hp => (h hp).1, Expr.codes value fun hp => (h hp).2.1⟩,
        Field.parts_codes rest fun hp => (h hp).2.2⟩

theorem Call.callee_codes : ∀ c : Call, (proper → c.Every Stat.Iterates) →
    c.calleePart.Codes proper
  | ⟨callee, _, _, _⟩, h => Expr.codes callee fun hp => (h hp).1

theorem Call.args_codes : ∀ c : Call, (proper → c.Every Stat.Iterates) →
    ∀ p ∈ c.argParts, p.Codes proper
  | ⟨_, _, args, _⟩, h => Expr.parts_codes args fun hp => (h hp).2

end

end LuaLowering
