import LuaLowering.Proofs.Flow.Operands

/-!
# Operators as structured code

Loading an expression writes its target and no register below it. Constants, names
and operators are loaded by one instruction, once their operands are in place, or
by a test and the code that it chooses between.
-/

namespace LuaLowering

/-- The code of a part loads the values asked for, wherever the registers from its
target on are free. Only a call or `...` is asked for other than one value. -/
def Part.Codes (proper : Prop) (p : Part) : Prop :=
  ∀ ⦃S : Site⦄ ⦃opened : List Nat⦄ ⦃K : Set Nat⦄ ⦃a : Nat⦄ ⦃n : Int⦄ ⦃lo hi : Mark⦄,
    S.Free opened K a → S.Room (a + 1) → S.Room (a + n.toNat) → -1 ≤ n →
    (p.exp.isMulti = true ∨ n = 1) → p.shape S opened a n (a + 1) lo hi →
    Code S proper opened K lo hi (loaded K a n)

variable {S : Site} {proper : Prop} {opened : List Nat} {K K' : Set Nat}
  {a b c used : Nat} {want : Int} {lo mid hi : Mark} {p left right : Part} {o : Operand}
  {used' : Nat} {op : BinaryOp}

/-! ## Loading one value -/

theorem ConstantIs.codes (hS : S.Limited) (hroom : S.Room (a + 1)) {k : Constant}
    (h : ConstantIs S k a lo hi) : Code S proper opened K lo hi (loaded K a 1) := by
  have hmax := hS.peak_le
  have ha : a < S.peak := hroom.2
  have hmod : a % 0x100 = a := Nat.mod_eq_of_lt (by omega)
  -- a load names its target and nothing else, but for a constant within its reach
  have hafter : ∀ {op : Opcode} {x : Nat}, op = .loadK ∨ op = .loadKx →
      loaded K a 1 ⊆ (Instruction.abx op a x).after [] K := by
    intro op x hop r hr
    have hload := Instruction.opcode?_abx op a x
    rw [Instruction.after, Set.mem_ofPred_eq, Instruction.base?_eq hload,
      Instruction.writes_eq hload, Instruction.a_abx, hmod]
    have hr' : r ∈ K ∨ r = a := by
      rcases hr with ⟨-, hr⟩ | ⟨hge, hlt⟩
      · exact Or.inl hr
      · exact Or.inr (by omega)
    rcases hop with rfl | rfl <;> simpa using hr'
  obtain ⟨i, hpool, ⟨hreach, hload, rfl⟩ | ⟨-, ⟨hload, -⟩, hextra, rfl⟩⟩ := h
  · have hload : S.Has lo.pc (.abx .loadK a i) := hload
    have hop := Instruction.opcode?_abx .loadK a i
    unfold Instruction.maxBx at hreach
    have hbx : i % 0x40000 = i := Nat.mod_eq_of_lt (by omega)
    refine .seq (.step (.of_opcode hload hop (by simp) ?_ ?_ ?_ ?_ ?_ ?_) ?_ ?_)
      (.drop (hafter (Or.inl rfl)))
    · simp
    · simpa [hmod] using ha
    · simp [Opcode.closes?]
    · simpa [hbx] using hpool.lt_size
    · simp
    · simp [Opcode.nested?]
    · rw [Instruction.ways_eq hop]
      rfl
    · rw [Instruction.nested?_eq hop]
      rfl
  · have hload : S.Has lo.pc (.abx .loadKx a 0) := hload
    have hextra : S.Has (lo.pc + 1) (.ax .extraArg i) := hextra
    have hop := Instruction.opcode?_abx .loadKx a 0
    have hop' := Instruction.opcode?_ax .extraArg i
    refine .seq (.far (.of_opcode hload hop ?_ ?_ ?_ ?_ ?_ ?_ ?_) hop
      (.of_opcode hextra hop' ?_ ?_ ?_ ?_ ?_ ?_ ?_) hop') (.drop (hafter (Or.inr rfl))) <;>
    simp [Opcode.closes?, Opcode.nested?, hmod, ha]

theorem Part.constant_codes (e : Expr) (k : Constant) (he : e.isMulti = false) :
    (Part.constant e k).Codes proper := by
  intro S opened K a want lo hi hfree hroom _ _ hwant h
  obtain rfl : want = 1 := hwant.resolve_left fun hmulti => by
    change e.isMulti = true at hmulti
    rw [he] at hmulti
    cases hmulti
  exact ConstantIs.codes hfree.limited hroom h

/-- An operand is found, or loaded into the first free register. -/
theorem OperandIs.codes (hp : p.Codes proper) {kinds : OperandKinds} (hfree : S.Free opened K used)
    (h : OperandIs S opened p kinds used lo o used' hi) :
    used ≤ used' ∧ ∃ K', Code S proper opened K lo hi K' ∧ (∀ r < used, r ∈ K → r ∈ K') ∧
      o.At S K' used' := by
  have hlimit := hfree.limited.constants
  cases h with
  | constant _ _ hpool hreach =>
    exact ⟨le_rfl, K, .drop subset_rfl, fun _ _ => id, hpool.lt_size,
      Nat.le_trans hreach hlimit⟩
  | register _ _ hlocal =>
    exact ⟨le_rfl, K, .drop subset_rfl, fun _ _ => id, hfree.local_at hlocal⟩
  | upvalue _ _ _ hup =>
    exact ⟨le_rfl, K, .drop subset_rfl, fun _ _ => id, hup.lt_size, hup.1⟩
  | fresh hroom hload =>
    refine ⟨Nat.le_succ _, loaded K used 1,
      hp hfree hroom hroom (by decide) (Or.inr rfl) hload, fun r hr hK => Or.inl ⟨hr, hK⟩,
      Or.inr ⟨le_rfl, Or.inr (by omega)⟩, Nat.lt_succ_self _, hroom.2⟩

/-- A field is read from a table in a register or an upvalue. -/
theorem fieldRead_codes (hS : S.Limited) (hroom : S.Room (a + 1)) {t k : Operand}
    (ht : t.At S K used) (hconst : ∀ i, t ≠ .constant i) (hk : S.Readable K k.field)
    (hkeep : ∀ r < a, r ∈ K' → r ∈ K) (hcode : S.Writes (fieldRead a t k) lo hi) :
    Code S proper opened K lo hi (loaded K' a 1) := by
  have hmax := hS.peak_le
  have ha : a < S.peak := hroom.2
  cases t with
  | constant i => exact absurd rfl (hconst i)
  | register r =>
    have hadm : S.Admits .getTable a r k.field K := by
      have hlt := ht.2.2
      refine ⟨by omega, by omega, hk.lt, by simp, ?_, ?_, hk.constants, by simp⟩
      · simpa [ht.1, hlt] using hk.registers
      · simpa using ha
    exact hadm.load hcode rfl rfl rfl hkeep
  | upvalue u =>
    have hlt := ht.2
    unfold maxUpvalues at hlt
    have hadm : S.Admits .getTabUp a u k.field K := by
      refine ⟨by omega, by omega, hk.lt, by simp, hk.registers, ?_, hk.constants, ?_⟩
      · simpa using ha
      · simpa using ht.1
    exact hadm.load hcode rfl rfl rfl hkeep

/-- A register is copied. -/
theorem move_codes (hS : S.Limited) (hroom : S.Room (a + 1)) (hb : (Operand.register b).At S K used)
    (hkeep : ∀ r < a, r ∈ K' → r ∈ K) (hcode : S.Writes (.abc .move a b 0) lo hi) :
    Code S proper opened K lo hi (loaded K' a 1) := by
  have hmax := hS.peak_le
  have ha : a < S.peak := hroom.2
  have hb' := hb.2.2
  have hadm : S.Admits .move a b 0 K := by
    refine ⟨by omega, by omega, by omega, by simp, ?_, ?_, ?_, ?_⟩ <;>
      simp [hb.1, hb', ha]
  exact hadm.load hcode rfl rfl rfl hkeep

theorem NameIs.codes (hfree : S.Free opened K a) (hroom : S.Room (a + 1)) {x : String}
    (h : NameIs S opened x a (a + 1) lo hi) : Code S proper opened K lo hi (loaded K a 1) := by
  have hS := hfree.limited
  have hmax := hS.peak_le
  have ha : a < S.peak := hroom.2
  cases h with
  | register hlocal hcode =>
    exact move_codes hS hroom (hfree.local_at hlocal) (fun _ _ => id) hcode
  | @upvalue u _ hup hcode =>
    have hlt := hup.1
    unfold maxUpvalues at hlt
    have hadm : S.Admits .getUpval a u 0 K := by
      refine ⟨by omega, by omega, by omega, by simp, ?_, ?_, ?_, ?_⟩ <;>
        simp [ha, hup.lt_size]
    exact hadm.load hcode rfl rfl rfl fun _ _ => id
  | @global env key _ _ _ _ henv hkey hcode =>
    have hfree' := hfree.advance (Nat.le_succ a) fun _ _ => id
    obtain ⟨hle, K₁, hload, hkeep, hat⟩ := hkey.codes (Part.constant_codes _ _ rfl) hfree'
    have henv' := (henv.at hfree').keep hkeep hle
    have hconst : ∀ i, env ≠ .constant i := by
      intro i hi
      subst hi
      cases henv
    exact .seq hload (fieldRead_codes hS hroom henv' hconst
      (hat.readable hS (hkey.kind.2 rfl)) (fun r hr hK => hkeep r (by omega) hK) hcode)

/-! ## Operators and fields -/

theorem IndexIs.codes {table key : Part} (ht : table.Codes proper) (hk : key.Codes proper)
    (hfree : S.Free opened K a) (hroom : S.Room (a + 1))
    (h : IndexIs S opened table key a (a + 1) lo hi) :
    Code S proper opened K lo hi (loaded K a 1) := by
  obtain ⟨t, k, used₁, used₂, mid₁, mid₂, htable, hkey, hcode⟩ := h
  have hfree' := hfree.advance (Nat.le_succ a) fun _ _ => id
  obtain ⟨hle₁, K₁, hcode₁, hkeep₁, hat₁⟩ := htable.codes ht hfree'
  obtain ⟨hle₂, K₂, hcode₂, hkeep₂, hat₂⟩ := hkey.codes hk (hfree'.advance hle₁ hkeep₁)
  refine .seq hcode₁ (.seq hcode₂ (fieldRead_codes hfree.limited hroom (hat₁.keep hkeep₂ hle₂)
    (htable.kind.1 rfl) (hat₂.readable hfree.limited (hkey.kind.2 rfl)) (fun r hr hK => ?_) hcode))
  exact hkeep₂ r (by omega) (hkeep₁ r (by omega) hK)

/-- An operand that can only be a register is one. -/
theorem OperandIs.register_at (h : OperandIs S opened p .register used lo o used' hi)
    (hat : o.At S K used') : (Operand.register o.field).At S K used' := by
  cases o with
  | register r => exact hat
  | constant k => exact absurd rfl (h.kind.1 rfl k)
  | upvalue u => exact absurd rfl (h.kind.2 rfl u)

theorem UnaryIs.codes {op : UnaryOp} (hp : p.Codes proper) (hfree : S.Free opened K a)
    (hroom : S.Room (a + 1)) (h : UnaryIs S opened op p a (a + 1) lo hi) :
    Code S proper opened K lo hi (loaded K a 1) := by
  obtain ⟨b, used', mid, hoperand, hcode⟩ := h
  obtain ⟨hle, K₁, hcode₁, hkeep, hat⟩ :=
    hoperand.codes hp (hfree.advance (Nat.le_succ a) fun _ _ => id)
  obtain ⟨hb, -, hb'⟩ := hoperand.register_at hat
  have hmax := hfree.limited.peak_le
  have ha : a < S.peak := hroom.2
  have hadm : S.Admits (Emit.unaryOpcode op) a b.field 0 K₁ := by
    refine ⟨by omega, by omega, by omega, ?_, ?_, ?_, ?_, ?_⟩ <;> cases op <;>
      simp [Emit.unaryOpcode, hb, hb', ha]
  have hkeep' : ∀ r < a, r ∈ K → r ∈ K₁ := fun r hr hK => hkeep r (by omega) hK
  cases op <;> exact .seq hcode₁ (hadm.load hcode rfl rfl rfl hkeep')

theorem ShortCircuitIs.codes {keep : Nat} (hl : left.Codes proper) (hr : right.Codes proper)
    (hlt : keep < 2) (hfree : S.Free opened K a) (hroom : S.Room (a + 1))
    (h : ShortCircuitIs S opened keep left right a (a + 1) lo hi) :
    Code S proper opened K lo hi (loaded K a 1) := by
  obtain ⟨b, c, used₁, used₂, mid₁, mid₂, hleft, ⟨htest, -⟩, hjump, hright, hmove⟩ := h
  have hfree' := hfree.advance (Nat.le_succ a) fun _ _ => id
  obtain ⟨hle₁, K₁, hcode₁, hkeep₁, hat₁⟩ := hleft.codes hl hfree'
  have hfree₁ : S.Free opened K₁ (a + 1) := hfree'.advance le_rfl hkeep₁
  obtain ⟨hle₂, K₂, hcode₂, hkeep₂, hat₂⟩ := hright.codes hr hfree₁
  obtain ⟨hb, -, hb'⟩ := hleft.register_at hat₁
  have hmax := hfree.limited.peak_le
  have ha : a < S.peak := hroom.2
  have hadm : S.Admits .testSet a b.field keep K₁ := by
    refine ⟨by omega, by omega, by omega, by simp, ?_, ?_, ?_, ?_⟩ <;>
      simp [hb, hb', ha]
  refine .seq hcode₁ (.either (hadm.does htest) (Instruction.opcode?_abc ..) hjump
    (.seq hcode₂ (move_codes hfree.limited hroom (hright.register_at hat₂)
      (fun r hr hK => hkeep₂ r (by omega) (hkeep₁ r (by omega) hK)) hmove)) fun r hr => ?_)
  refine hadm.mem_after ?_
  rw [hadm.a_eq]
  rcases hr with ⟨hlt, hK⟩ | ⟨hge, hlt⟩
  · exact Or.inl ⟨hkeep₁ r (by omega) hK, by simp⟩
  · refine Or.inr ⟨.one a, by simp, ?_⟩
    rw [Span.toSet_one, Set.mem_singleton_iff]
    omega

/-- The two operands of an operator. -/
theorem Site.Admits.operands {op : Opcode} (hb : S.Readable K b) (hc : S.Readable K c)
    (ha : a < 0x100) (hplain : op ≠ .jmp ∧ op ≠ .closure ∧ op ≠ .loadK ∧
      ∀ s ∈ op.spare, (Instruction.abc op a b c).shownNumber s = 0)
    (hreads : op.reads a b c = registerIn b ++ registerIn c)
    (hwrites : ∀ s ∈ op.writes a b c ++ (op.ways a c).flatMap (·.2), s.Fits S)
    (hconsts : op.constants b c 0 = constantIn b ++ constantIn c)
    (hups : op.upvalues a b = []) : S.Admits op a b c K := by
  refine ⟨ha, hb.lt, hc.lt, hplain, fun s hs => ?_, hwrites, fun k hk => ?_, fun u hu => ?_⟩
  · rw [hreads, List.mem_append] at hs
    exact hs.elim (hb.registers s) (hc.registers s)
  · rw [hconsts, List.mem_append] at hk
    exact hk.elim (hb.constants k) (hc.constants k)
  · rw [hups] at hu
    cases hu

/-- The outcome of a comparison is loaded. -/
theorem loadBool_admits (hS : S.Limited) (hroom : S.Room (a + 1)) (hb : b < 2) (hc : c < 2) :
    S.Admits .loadBool a b c K := by
  have hmax := hS.peak_le
  have ha : a < S.peak := hroom.2
  refine ⟨by omega, by omega, by omega, by simp, ?_, ?_, ?_, ?_⟩ <;>
    simp [ha]

theorem CombinedIs.codes (hop : op ≠ .and ∧ op ≠ .or) (hS : S.Limited) (hroom : S.Room (a + 1))
    (hb : S.Readable K b) (hc : S.Readable K c) (hkeep : ∀ r < a, r ∈ K' → r ∈ K)
    (h : CombinedIs S op a b c lo hi) : Code S proper opened K lo hi (loaded K' a 1) := by
  have hmax := hS.peak_le
  have ha : a < S.peak := hroom.2
  rw [CombinedIs] at h
  split at h
  · next code hcode =>
    have hadm : S.Admits code a b c K ∧ code.ways a c = [(.next, [])] ∧ code.base? a b = none ∧
        code.writes a b c = [.one a] := by
      cases op <;> simp only [Emit.arithmetic?, Option.some.injEq, reduceCtorEq] at hcode <;>
        subst hcode <;>
        refine ⟨.operands hb hc (by omega) (by simp) rfl ?_ rfl rfl, rfl, rfl, rfl⟩ <;>
        simpa using ha
    exact hadm.1.load h hadm.2.1 hadm.2.2.1 hadm.2.2.2 hkeep
  · split at h
    · next code outcome left right htest =>
      obtain ⟨⟨hcompare, -⟩, hjump, ⟨hfalse, -⟩, htrue, rfl⟩ := h
      have hadm : S.Admits code outcome left right K ∧ (code = .eq ∨ code = .lt ∨ code = .le) := by
        cases op <;> simp only [Emit.comparison?, Option.some.injEq, Prod.mk.injEq, reduceCtorEq]
            at htest <;> obtain ⟨rfl, rfl, rfl, rfl⟩ := htest <;>
          refine ⟨.operands (by assumption) (by assumption) (by omega) (by simp) rfl ?_ rfl rfl,
            by simp⟩ <;>
          simp
      have hno : S.Admits .loadBool a 0 1 K := loadBool_admits hS hroom (by omega) (by omega)
      have hyes : S.Admits .loadBool a 1 0 K := loadBool_admits hS hroom (by omega) (by omega)
      have hjump' : S.Jumps .jmp (lo.pc + 1) 0 (lo.pc + 3) :=
        hjump.jumps (by rw [Mark.pc_next]; omega) (by decide)
      have hsame : (Instruction.abc .loadBool a 0 1).after [] K =
          (Instruction.abc .loadBool a 1 0).after [] K := by
        simp only [Instruction.after, Instruction.base?_eq (Instruction.opcode?_abc ..),
          Instruction.writes_eq (Instruction.opcode?_abc ..), Instruction.a_abc, Opcode.base?,
          Opcode.writes]
      refine .seq (.compare (hadm.1.does hcompare) (Instruction.opcode?_abc ..) hadm.2 hjump'
        (hno.does hfalse) hno.ways_eq (hyes.does htrue) hyes.ways_eq
        (Instruction.opcode?_abc ..) hsame) (.drop fun r hr => ?_)
      refine hyes.mem_after ?_
      rcases hr with ⟨hlt, hK⟩ | ⟨hge, hlt⟩
      · exact Or.inl ⟨hkeep r hlt hK, by simp⟩
      · refine Or.inr ⟨.one a, List.mem_singleton_self _, ?_⟩
        rw [Span.toSet_one, Set.mem_singleton_iff]
        omega
    · next hnone =>
      cases op <;> simp_all [Emit.arithmetic?, Emit.comparison?]

theorem BinaryIs.codes (hl : left.Codes proper) (hr : right.Codes proper)
    (hfree : S.Free opened K a) (hroom : S.Room (a + 1))
    (h : BinaryIs S opened op left right a (a + 1) lo hi) :
    Code S proper opened K lo hi (loaded K a 1) := by
  rw [BinaryIs.eq_def] at h
  split at h
  · exact ShortCircuitIs.codes hl hr (by decide) hfree hroom h
  · exact ShortCircuitIs.codes hl hr (by decide) hfree hroom h
  · next hand hor =>
    obtain ⟨b, c, used₁, used₂, mid₁, mid₂, hleft, hright, hcode⟩ := h
    have hS := hfree.limited
    have hfree' := hfree.advance (Nat.le_succ a) fun _ _ => id
    obtain ⟨hle₁, K₁, hcode₁, hkeep₁, hat₁⟩ := hleft.codes hl hfree'
    obtain ⟨hle₂, K₂, hcode₂, hkeep₂, hat₂⟩ := hright.codes hr (hfree'.advance hle₁ hkeep₁)
    refine .seq hcode₁ (.seq hcode₂ (hcode.codes ⟨hand, hor⟩ hS hroom
      ((hat₁.keep hkeep₂ hle₂).readable hS (hleft.kind.2 rfl))
      (hat₂.readable hS (hright.kind.2 rfl))
      fun r hr hK => ?_))
    exact hkeep₂ r (by omega) (hkeep₁ r (by omega) hK)

/-- An expression with exactly one value. -/
theorem Part.Codes.single (hsingle : p.exp.isMulti = false)
    (h : ∀ ⦃S : Site⦄ ⦃opened : List Nat⦄ ⦃K : Set Nat⦄ ⦃a : Nat⦄ ⦃lo hi : Mark⦄,
      S.Free opened K a → S.Room (a + 1) → p.shape S opened a 1 (a + 1) lo hi →
      Code S proper opened K lo hi (loaded K a 1)) : p.Codes proper := by
  intro S opened K a n lo hi hfree hroom _ _ hn hshape
  obtain rfl : n = 1 := hn.resolve_left (by simp [hsingle])
  exact h hfree hroom hshape

end LuaLowering
