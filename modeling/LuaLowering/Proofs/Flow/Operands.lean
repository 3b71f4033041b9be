import LuaLowering.Proofs.Flow.Code

/-!
# Instructions in their place

What an instruction needs where it stands: its operands fit their fields, the
registers that it reads have been written, and whatever it names exists. From that
each instruction of an expression is a piece of `Code`.

While an expression is evaluated, the registers below its target keep what they
hold. Those of the locals are among them.
-/

namespace LuaLowering

/-! ## The registers of locals -/

/-- Everything that an operand can name fits into its field. -/
structure Site.Limited (S : Site) : Prop where
  stack : S.peak ≤ frameRegisters
  constants : S.options.constantLimit ≤ operandConstants

/-- The open locals have the lowest registers, one each. -/
def Site.Slotted (S : Site) : List Nat → Prop
  | [] => True
  | i :: is => (∃ v, S.draft.locals[i]? = some v ∧ v.slot = is.length) ∧ S.Room (is.length + 1) ∧
      S.Slotted is

/-- The registers from `a` on are free: the locals have theirs below, and these
have been written. -/
structure Site.Free (S : Site) (opened : List Nat) (K : Set Nat) (a : Nat) : Prop where
  limited : S.Limited
  slotted : S.Slotted opened
  held : ∀ r < opened.length, r ∈ K
  below : opened.length ≤ a

variable {S : Site} {proper : Prop} {opened : List Nat} {K K' : Set Nat} {op : Opcode}
  {a b c n : Nat} {lo mid hi : Mark} {v : Local} {x : String} {P P' : Point} {exit : Option Exit}
  {r pc used used' : Nat} {o : Operand}

/-- A finished function is limited by the options. -/
theorem Site.Fits.limited (h : S.Fits) (hregs : S.options.registerLimit ≤ frameRegisters)
    (hconsts : S.options.constantLimit ≤ operandConstants) : S.Limited := by
  have hpeak := S.draft.registers.peak_le
  rw [h.limit] at hpeak
  exact ⟨Nat.le_trans hpeak hregs, hconsts⟩

theorem Site.Limited.peak_le (hS : S.Limited) : S.peak ≤ 0xff := hS.stack

theorem Site.Room.mono {m : Nat} (h : S.Room n) (hle : m ≤ n) : S.Room m :=
  ⟨Nat.le_trans hle h.1, Nat.le_trans hle h.2⟩

namespace Site.Slotted

theorem length_le (h : S.Slotted opened) : opened.length ≤ S.peak := by
  cases opened with
  | nil => exact Nat.zero_le _
  | cons i is => exact h.2.1.2

theorem slot_lt (h : S.Slotted opened) {j : Nat} (hj : j ∈ opened)
    (hv : S.draft.locals[j]? = some v) : v.slot < opened.length := by
  induction opened with
  | nil => cases hj
  | cons i is ih =>
    obtain ⟨⟨w, hw, hslot⟩, -, hrest⟩ := h
    rw [List.length_cons]
    rcases List.mem_cons.mp hj with rfl | hj
    · obtain rfl := Option.some.inj (hv.symm.trans hw)
      omega
    · exact Nat.lt_succ_of_lt (ih hrest hj)

/-- A name stands for one of the open locals. -/
theorem local_mem (h : S.Slotted opened) (hv : S.local? opened x = some v) :
    ∃ j ∈ opened, S.draft.locals[j]? = some v ∧ v.name = x := by
  induction opened with
  | nil => cases hv
  | cons i is ih =>
    obtain ⟨⟨w, hw, -⟩, -, hrest⟩ := h
    rw [Site.local?_cons hw] at hv
    split at hv
    · next hname =>
        obtain rfl := Option.some.inj hv
        exact ⟨i, List.mem_cons_self, hw, hname⟩
    · obtain ⟨j, hj, hjv, hname⟩ := ih hrest hv
      exact ⟨j, List.mem_cons_of_mem _ hj, hjv, hname⟩

theorem local_lt (h : S.Slotted opened) (hv : S.local? opened x = some v) :
    v.slot < opened.length := by
  obtain ⟨j, hj, hjv, -⟩ := h.local_mem hv
  exact h.slot_lt hj hjv

theorem append_left {new : List Nat} (h : S.Slotted (new ++ opened)) : S.Slotted opened := by
  induction new with
  | nil => exact h
  | cons i new ih => exact ih h.2.2

end Site.Slotted

/-- Declared locals get the next registers. -/
theorem Declares.slotted {startPc : Nat} {names : List String} (h : Declares S startPc names P P')
    (hP : S.Slotted P.opened) : S.Slotted P'.opened := by
  induction names generalizing P with
  | nil =>
    obtain rfl : P' = P := h
    exact hP
  | cons x rest ih =>
    obtain ⟨⟨v, hv, -, hslot, -⟩, hroom, hrest⟩ := h
    exact ih hrest ⟨⟨v, hv, hslot⟩, hroom, hP⟩

theorem Flow.slotted (h : Flow S proper exit P P') (hP : S.Slotted P.opened) :
    S.Slotted P'.opened := by
  induction h with
  | skip | leave | ret => exact hP
  | seq _ _ ih ih' => exact ih' (ih hP)
  | declare _ _ hdecl => exact hdecl.slotted hP
  | scope _ _ _ _ hsame | lastArm _ _ hsame | arm _ _ _ _ _ hsame
  | repeatLoop _ _ _ _ _ hsame => exact hsame ▸ hP
  | whileLoop _ _ _ _ _ hpoint => exact hpoint ▸ hP
  | forLoop _ _ _ _ _ _ _ _ _ _ _ _ _ _ _ _ _ _ _ hpoint => exact hpoint ▸ hP

/-- The open locals stay open. -/
theorem Flow.suffix (h : Flow S proper exit P P') : P.opened <:+ P'.opened := by
  induction h with
  | skip | leave | ret => exact List.suffix_refl _
  | seq _ _ ih ih' => exact ih.trans ih'
  | declare _ _ hdecl => exact hdecl.opens.suffix
  | scope _ _ _ _ hsame | lastArm _ _ hsame | arm _ _ _ _ _ hsame
  | repeatLoop _ _ _ _ _ hsame => exact hsame ▸ List.suffix_refl _
  | whileLoop _ _ _ _ _ hpoint => exact hpoint ▸ List.suffix_refl _
  | forLoop _ _ _ _ _ _ _ _ _ _ _ _ _ _ _ _ _ _ _ hpoint => exact hpoint ▸ List.suffix_refl _

theorem Flow.held_subset (h : Flow S proper exit P P') :
    P.held ⊆ P'.held := Set.Iio_subset_Iio h.suffix.length_le

/-! ## Values in registers -/

/-- What has been written when `want` values have been loaded from register `a` on:
the registers below are as they were. -/
def loaded (K : Set Nat) (a : Nat) (want : Int) : Set Nat :=
  {r | (r < a ∧ r ∈ K) ∨ (a ≤ r ∧ (want < 0 ∨ (r : Int) < a + want))}

theorem mem_loaded {want : Int} :
    r ∈ loaded K a want ↔ (r < a ∧ r ∈ K) ∨ (a ≤ r ∧ (want < 0 ∨ (r : Int) < a + want)) := Iff.rfl

namespace Site.Free

theorem advance (h : S.Free opened K a) (hle : a ≤ b) (hkeep : ∀ r < a, r ∈ K → r ∈ K') :
    S.Free opened K' b where
  limited := h.limited
  slotted := h.slotted
  held := fun r hr => hkeep r (Nat.lt_of_lt_of_le hr h.below) (h.held r hr)
  below := Nat.le_trans h.below hle

theorem loaded {n : Int} (h : S.Free opened K a) (hle : a ≤ b) :
    S.Free opened (loaded K a n) b :=
  h.advance hle fun _ hr hK => Or.inl ⟨hr, hK⟩

end Site.Free

/-! ## One instruction -/

/-- The frame has a row of registers. -/
def Span.Fits (s : Span) (S : Site) : Prop := ∀ r ∈ s.known, r < S.peak

/-- The frame has a row of registers, and all of them have been written. -/
structure Span.Full (s : Span) (S : Site) (K : Set Nat) : Prop where
  written : s.toSet ⊆ K
  fits : s.Fits S

namespace Span

variable {r first count : Nat}

@[simp] theorem fits_one : (Span.one r).Fits S ↔ r < S.peak := by simp [Fits]

@[simp] theorem fits_some : (Span.mk first (some count)).Fits S ↔
    ∀ r, first ≤ r → r < first + count → r < S.peak := by simp [Fits]

@[simp] theorem fits_none : (Span.mk first none).Fits S ↔ first < S.peak := by
  simp [Fits]

theorem full_iff {s : Span} : s.Full S K ↔ s.toSet ⊆ K ∧ s.Fits S :=
  ⟨fun h => ⟨h.written, h.fits⟩, fun h => ⟨h.1, h.2⟩⟩

@[simp] theorem full_one : (Span.one r).Full S K ↔ r ∈ K ∧ r < S.peak := by
  simp [full_iff]

@[simp] theorem full_some : (Span.mk first (some count)).Full S K ↔
    ∀ r, first ≤ r → r < first + count → r ∈ K ∧ r < S.peak := by
  simp only [full_iff, toSet_some, fits_some]
  exact ⟨fun h r hge hlt => ⟨h.1 ⟨hge, hlt⟩, h.2 r hge hlt⟩,
    fun h => ⟨fun r hr => (h r hr.1 hr.2).1, fun r hge hlt => (h r hge hlt).2⟩⟩

@[simp] theorem full_none : (Span.mk first none).Full S K ↔
    (∀ r, first ≤ r → r ∈ K) ∧ first < S.peak := by
  simp only [full_iff, toSet_none, fits_none]
  exact Iff.rfl

end Span

theorem Site.Does.of_opcode {i : Instruction} (hcode : S.Has pc i) (hop : i.opcode? = some op)
    (hspare : ∀ s ∈ op.spare, i.shownNumber s = 0)
    (hreads : ∀ s ∈ op.reads i.a i.b i.c, s.Full S K)
    (hwrites : ∀ s ∈ op.writes i.a i.b i.c ++ (op.ways i.a i.c).flatMap (·.2), s.Fits S)
    (hclose : ∀ r ∈ op.closes? i.a, r < S.peak)
    (hconsts : ∀ k ∈ op.constants i.b i.c i.bx, k < S.draft.constants.size)
    (hups : ∀ u ∈ op.upvalues i.a i.b, u < S.draft.upvalues.size)
    (hnested : ∀ k ∈ op.nested? i.bx, k < S.draft.nested.size) : S.Does proper pc i K := by
  refine ⟨hcode, Instruction.canonical_of_opcode? hop hspare, fun _ s hs => ?_,
    fun _ => ⟨fun r hr => ?_, ?_, ?_, ?_⟩⟩
  · rw [Instruction.reads_eq hop] at hs
    exact (hreads s hs).written
  · rw [Instruction.registers, Instruction.reads_eq hop, Instruction.writes_eq hop,
      Instruction.ways_eq hop, Instruction.closes?_eq hop, List.append_assoc, List.mem_append,
      List.mem_flatMap, Option.mem_toList] at hr
    rcases hr with ⟨s, hs, hr⟩ | hr
    · rcases List.mem_append.mp hs with hs | hs
      · exact (hreads s hs).fits r hr
      · exact hwrites s hs r hr
    · exact hclose r hr
  · rwa [Instruction.constants_eq hop]
  · rwa [Instruction.upvalues_eq hop]
  · rwa [Instruction.nested?_eq hop]

theorem Opcode.constants_congr (h : op ≠ .loadK) (bx bx' : Nat) :
    op.constants b c bx = op.constants b c bx' := by
  cases op <;> first | rfl | exact absurd rfl h

theorem Opcode.nested?_of_ne (h : op ≠ .closure) (bx : Nat) : op.nested? bx = none := if_neg h

/-- What does not fit its field is cut off. -/
theorem Instruction.abc_mod (op : Opcode) (a b c : Nat) :
    abc op a (b % 0x200) (c % 0x200) = abc op a b c := by
  rw [abc, abc, Nat.mod_mod, Nat.mod_mod]

/-- Operands that an instruction may have where some registers have been written. -/
structure Site.Admits (S : Site) (op : Opcode) (a b c : Nat) (K : Set Nat) : Prop where
  a_lt : a < 0x100
  b_lt : b < 0x200
  c_lt : c < 0x200
  -- an operand that is not shown is zero
  plain : op ≠ .jmp ∧ op ≠ .closure ∧ op ≠ .loadK ∧
    ∀ s ∈ op.spare, (Instruction.abc op a b c).shownNumber s = 0
  reads : ∀ s ∈ op.reads a b c, s.Full S K
  writes : ∀ s ∈ op.writes a b c ++ (op.ways a c).flatMap (·.2), s.Fits S
  constants : ∀ k ∈ op.constants b c 0, k < S.draft.constants.size
  upvalues : ∀ u ∈ op.upvalues a b, u < S.draft.upvalues.size

namespace Site.Admits

variable (h : S.Admits op a b c K)

include h

theorem a_eq : (Instruction.abc op a b c).a = a := by
  rw [Instruction.a_abc, Nat.mod_eq_of_lt h.a_lt]

theorem b_eq : (Instruction.abc op a b c).b = b := by
  rw [Instruction.b_abc, Nat.mod_eq_of_lt h.b_lt]

theorem c_eq : (Instruction.abc op a b c).c = c := by
  rw [Instruction.c_abc, Nat.mod_eq_of_lt h.c_lt]

theorem ways_eq : (Instruction.abc op a b c).ways = op.ways a c := by
  rw [Instruction.ways_eq (Instruction.opcode?_abc ..), h.a_eq, h.c_eq]

theorem does (hcode : S.Has pc (.abc op a b c)) : S.Does proper pc (.abc op a b c) K := by
  obtain ⟨hjmp, hclosure, hloadK, hspare⟩ := h.plain
  refine .of_opcode hcode (Instruction.opcode?_abc ..) hspare ?_ ?_ ?_ ?_ ?_ ?_
  · rw [h.a_eq, h.b_eq, h.c_eq]
    exact h.reads
  · rw [h.a_eq, h.b_eq, h.c_eq]
    exact h.writes
  · rw [Opcode.closes?, if_neg fun hj => hjmp hj.1]
    simp
  · rw [h.b_eq, h.c_eq, Opcode.constants_congr hloadK _ 0]
    exact h.constants
  · rw [h.a_eq, h.b_eq]
    exact h.upvalues
  · rw [Opcode.nested?_of_ne hclosure]
    simp

theorem mem_after {extra : List Span}
    (hr : (r ∈ K ∧ ∀ base ∈ op.base? a b, r < base) ∨ ∃ s ∈ op.writes a b c ++ extra, r ∈ s.toSet) :
    r ∈ (Instruction.abc op a b c).after extra K := by
  have hop := Instruction.opcode?_abc op a b c
  rw [Instruction.after, Set.mem_ofPred_eq, Instruction.base?_eq hop, Instruction.writes_eq hop,
    h.a_eq, h.b_eq, h.c_eq]
  exact hr

/-- An instruction that goes on with the next one. -/
theorem step (hhas : S.Has lo.pc (.abc op a b c)) (hways : op.ways a c = [(.next, [])])
    (hK : ∀ r ∈ K', (r ∈ K ∧ ∀ base ∈ op.base? a b, r < base) ∨
      ∃ s ∈ op.writes a b c, r ∈ s.toSet) : Code S proper opened K lo lo.next K' := by
  have hnone : (Instruction.abc op a b c).nested? = none := by
    rw [Instruction.nested?_eq (Instruction.opcode?_abc ..), Opcode.nested?_of_ne h.plain.2.1]
  refine .seq (.step (h.does hhas) (h.ways_eq.trans hways) hnone) (.drop fun r hr => ?_)
  refine h.mem_after ?_
  rw [List.append_nil]
  exact hK r hr

theorem code (hcode : S.Writes (.abc op a b c) lo hi) (hways : op.ways a c = [(.next, [])])
    (hK : ∀ r ∈ K', (r ∈ K ∧ ∀ base ∈ op.base? a b, r < base) ∨
      ∃ s ∈ op.writes a b c, r ∈ s.toSet) : Code S proper opened K lo hi K' := by
  obtain ⟨hhas, rfl⟩ := hcode
  exact h.step hhas hways hK

/-- An instruction that loads one value. -/
theorem load (hcode : S.Writes (.abc op a b c) lo hi) (hways : op.ways a c = [(.next, [])])
    (hbase : op.base? a b = none) (hwrites : op.writes a b c = [.one a])
    (hkeep : ∀ r < a, r ∈ K' → r ∈ K) : Code S proper opened K lo hi (loaded K' a 1) := by
  refine h.code hcode hways fun r hr => ?_
  rcases hr with ⟨hlt, hr⟩ | ⟨hge, hlt⟩
  · refine Or.inl ⟨hkeep r hlt hr, fun base hb => ?_⟩
    rw [hbase] at hb
    cases hb
  · refine Or.inr ⟨.one a, ?_, ?_⟩
    · rw [hwrites]
      exact List.mem_singleton_self _
    · rw [Span.toSet_one, Set.mem_singleton_iff]
      omega

/-- An instruction that writes no register. -/
theorem idle (hcode : S.Writes (.abc op a b c) lo hi) (hways : op.ways a c = [(.next, [])])
    (hbase : op.base? a b = none) : Code S proper opened K lo hi K := by
  refine h.code hcode hways fun r hr => Or.inl ⟨hr, fun base hb => ?_⟩
  rw [hbase] at hb
  cases hb

end Site.Admits

/-! ## Operands -/

/-- Where an operand is, it can be read: its register has been written and is in
use, or the constant or upvalue exists. -/
def Operand.At (o : Operand) (S : Site) (K : Set Nat) (used : Nat) : Prop :=
  match o with
  | .register r => r ∈ K ∧ r < used ∧ r < S.peak
  | .constant k => k < S.draft.constants.size ∧ k ≤ operandConstants
  | .upvalue u => u < S.draft.upvalues.size ∧ u < maxUpvalues

theorem Operand.At.keep (h : o.At S K used) (hkeep : ∀ r < used, r ∈ K → r ∈ K')
    (hle : used ≤ used') : o.At S K' used' := by
  cases o with
  | register r => exact ⟨hkeep r h.2.1 h.1, Nat.lt_of_lt_of_le h.2.1 hle, h.2.2⟩
  | constant | upvalue => exact h

theorem Site.Upvalue.lt_size {u : Nat} (h : S.Upvalue u x) : u < S.draft.upvalues.size := by
  obtain ⟨-, hden⟩ := h
  cases houter : S.outer with
  | nil =>
    rw [houter] at hden
    obtain ⟨c, hc, -⟩ := hden
    exact (Array.getElem?_eq_some_iff.mp hc).1
  | cons F outer =>
    rw [houter] at hden
    obtain ⟨c, hc, -⟩ := hden
    exact (Array.getElem?_eq_some_iff.mp hc).1

theorem Site.Pool.lt_size {i : Nat} {k : Constant} (h : S.Pool i k) :
    i < S.draft.constants.size := by
  obtain ⟨c, hc, -⟩ := h
  exact (Array.getElem?_eq_some_iff.mp hc).1

/-- The register of a local is an operand. -/
theorem Site.Free.local_at (h : S.Free opened K a) (hv : S.local? opened x = some v) :
    (Operand.register v.slot).At S K a := by
  have hlt := h.slotted.local_lt hv
  exact ⟨h.held _ hlt, Nat.lt_of_lt_of_le hlt h.below, Nat.lt_of_lt_of_le hlt h.slotted.length_le⟩

theorem GlobalsAre.at {env : Operand} (h : S.Free opened K a) (henv : GlobalsAre S opened env) :
    env.At S K a := by
  cases henv with
  | register hlocal => exact h.local_at hlocal
  | upvalue _ hup => exact ⟨hup.lt_size, hup.1⟩

/-- A field that may name a register or a constant. -/
structure Site.Readable (S : Site) (K : Set Nat) (field : Nat) : Prop where
  lt : field < 0x200
  registers : ∀ s ∈ registerIn field, s.Full S K
  constants : ∀ k ∈ constantIn field, k < S.draft.constants.size

theorem Site.Readable.register (hS : S.Limited) (hK : r ∈ K) (hr : r < S.peak) :
    S.Readable K r := by
  have hmax := hS.peak_le
  have hreg : Instruction.isConstant r = false := by
    simp only [Instruction.isConstant, decide_eq_false_iff_not]
    omega
  refine ⟨by omega, ?_, ?_⟩ <;> simp [registerIn, constantIn, hreg, hK, hr]

theorem Site.Readable.constant {k : Nat} (hk : k < S.draft.constants.size)
    (hreach : k ≤ operandConstants) : S.Readable K (Instruction.constantField k) := by
  unfold operandConstants at hreach
  have hconst : Instruction.isConstant (k + 0x100) = true := by
    simp only [Instruction.isConstant, decide_eq_true_eq]
    omega
  rw [Instruction.constantField_of_lt (by omega)]
  refine ⟨by omega, ?_, ?_⟩ <;> simp [registerIn, constantIn, hconst, hk]

theorem Operand.At.readable (hS : S.Limited) (h : o.At S K used) (hkind : ∀ u, o ≠ .upvalue u) :
    S.Readable K o.field := by
  cases o with
  | register r => exact .register hS h.1 h.2.2
  | constant k => exact .constant h.1 h.2
  | upvalue u => exact absurd rfl (hkind u)

/-- The kinds of operand that an instruction can read are those it gets. -/
theorem OperandIs.kind {p : Part} {kinds : OperandKinds}
    (h : OperandIs S opened p kinds used lo o used' hi) :
    (kinds.constants = false → ∀ k, o ≠ .constant k) ∧
      (kinds.upvalues = false → ∀ u, o ≠ .upvalue u) := by
  cases h <;> simp_all

end LuaLowering
