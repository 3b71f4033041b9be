import LuaLowering.Proofs.Flow.Statement

/-!
# Where an expression works

While an expression is loaded, the registers below its target hold what is needed
later: the locals, and whatever has been loaded before it. Its code leaves them alone.
It also keeps control to itself: from each of its instructions there is a way on, and
every such way leads further down, and none past its end.

A stretch of code with both properties is a `Region`. Two of them one after the other
make a larger one, and so every expression has one, whatever it is made of.
-/

namespace LuaLowering

variable {s : Span} {r c pc : Nat} {p left right callee : Part} {parts args : List Part} {n : Int}
  {fields : List FieldPart} {method : Option String}

/-! ## Instructions -/

theorem Span.first_le (h : r ∈ s.toSet) : s.first ≤ r := by
  obtain ⟨first, count⟩ := s
  cases count with
  | none => exact h
  | some n => exact h.1

namespace Opcode

/-- What an operation writes begins at its first operand or above it. -/
theorem le_first_of_writes {op : Opcode} {a b : Nat} (h : s ∈ op.writes a b c) : a ≤ s.first := by
  cases op <;> simp [writes, Span.one, Span.counted] at h <;> simp [h]

theorem le_first_of_ways {op : Opcode} {a : Nat} {w : Turn × List Span} (h : w ∈ op.ways a c)
    (hs : s ∈ w.2) : a ≤ s.first := by
  cases op <;> simp [ways, Span.one] at h <;> grind

theorem le_of_base? {op : Opcode} {a b base : Nat} (h : op.base? a b = some base) : a ≤ base := by
  cases op <;> simp [base?] at h <;> omega

/-- An operation that only says where control goes on, or completes another. -/
def isSilent : Opcode → Bool
  | .jmp | .eq | .lt | .le | .test | .extraArg => true
  | _ => false

end Opcode

namespace Instruction

/-- A register may be changed by an instruction after which control goes on one of its
ways: it is written, or given away to a call. -/
def Changes (i : Instruction) (extra : List Span) (r : Nat) : Prop :=
  (∃ s ∈ i.writes ++ extra, r ∈ s.toSet) ∨ ∃ base, i.base? = some base ∧ base ≤ r

/-- No register below `a` is changed by an instruction. -/
def Above (i : Instruction) (a : Nat) : Prop := ∀ w ∈ i.ways, ∀ r, i.Changes w.2 r → a ≤ r

theorem Above.mono {i : Instruction} {a b : Nat} (h : i.Above a) (hle : b ≤ a) : i.Above b :=
  fun w hw r hr => Nat.le_trans hle (h w hw r hr)

/-- An instruction changes nothing below its first operand. -/
theorem above_first (i : Instruction) : i.Above i.a := by
  intro w hw r hr
  cases hop : i.opcode? with
  | none =>
    rw [ways, hop] at hw
    cases hw
  | some op =>
    rw [ways_eq hop] at hw
    rw [Changes, writes_eq hop, base?_eq hop] at hr
    rcases hr with ⟨s, hs, hr⟩ | ⟨base, hbase, hr⟩
    · refine Nat.le_trans ?_ (Span.first_le hr)
      rcases List.mem_append.mp hs with hs | hs
      · exact Opcode.le_first_of_writes hs
      · exact Opcode.le_first_of_ways hw hs
    · exact Nat.le_trans (Opcode.le_of_base? hbase) hr

theorem above_of_silent {i : Instruction} {op : Opcode} (hop : i.opcode? = some op)
    (hsilent : op.isSilent = true) (a : Nat) : i.Above a := by
  intro w hw r hr
  rw [ways_eq hop] at hw
  rw [Changes, writes_eq hop, base?_eq hop] at hr
  cases op <;> cases hsilent <;> simp at hw <;>
    simp at hr <;> grind

end Instruction

/-! ## Regions -/

/-- Code that leaves the registers below `a` alone, and that control goes through from the
front to the end. -/
structure Site.Region (S : Site) (a lo hi : Nat) : Prop where
  le : lo ≤ hi
  code : ∀ pc, lo ≤ pc → pc < hi → ∃ i, S.Has pc i ∧ i.Above a ∧ i.ways ≠ [] ∧
    ∀ t ∈ i.targets pc, (pc : Int) < t ∧ t ≤ hi

variable {S : Site} {opened : List Nat} {a b used : Nat} {want : Int} {lo mid hi : Mark}
  {i : Instruction} {op : Opcode}

namespace Site.Region

theorem refl (a pc : Nat) : S.Region a pc pc := ⟨le_rfl, fun _ hge hlt => by omega⟩

theorem mono {lo hi : Nat} (h : S.Region a lo hi) (hle : b ≤ a) : S.Region b lo hi := by
  refine ⟨h.le, fun pc hge hlt => ?_⟩
  obtain ⟨i, hi, habove, hon⟩ := h.code pc hge hlt
  exact ⟨i, hi, habove.mono hle, hon⟩

theorem trans {lo mid hi : Nat} (h : S.Region a lo mid) (h' : S.Region a mid hi) :
    S.Region a lo hi := by
  have hle := h'.le
  refine ⟨Nat.le_trans h.le hle, fun pc hge hlt => ?_⟩
  by_cases hmid : pc < mid
  · obtain ⟨i, hi, habove, hways, htargets⟩ := h.code pc hge hmid
    refine ⟨i, hi, habove, hways, fun t ht => ?_⟩
    obtain ⟨hgt, hle'⟩ := htargets t ht
    exact ⟨hgt, by omega⟩
  · exact h'.code pc (Nat.not_lt.mp hmid) hlt

/-- One instruction in front of others. -/
theorem cons {hi : Nat} (hat : S.Has pc i) (habove : i.Above a) (hways : i.ways ≠ [])
    (htargets : ∀ t ∈ i.targets pc, (pc : Int) < t ∧ t ≤ hi) (hrest : S.Region a (pc + 1) hi) :
    S.Region a pc hi := by
  have hle := hrest.le
  refine ⟨by omega, fun pc' hge hlt => ?_⟩
  rcases Nat.eq_or_lt_of_le hge with rfl | hgt
  · exact ⟨i, hat, habove, hways, htargets⟩
  · exact hrest.code pc' hgt hlt

/-- One instruction after which control goes on at the next. -/
theorem next {asked : Request} (hcode : S.Writes asked lo hi) (habove : asked.word.Above a)
    (hways : asked.word.ways = [(.next, [])]) : S.Region a lo.pc hi.pc := by
  obtain ⟨hat, rfl⟩ := hcode
  refine .cons hat habove (by simp [hways]) (fun t ht => ?_) (.refl a _)
  rw [Instruction.targets, hways, List.map_singleton, List.mem_singleton] at ht
  rw [ht, Instruction.target, Mark.pc_next]
  omega

theorem abc (hcode : S.Writes (.abc op r b c) lo hi)
    (hways : op.ways (r % 0x100) (c % 0x200) = [(.next, [])]) (hr : r < 0x100) (ha : a ≤ r) :
    S.Region a lo.pc hi.pc := by
  refine .next hcode ((Instruction.above_first _).mono ?_) ?_
  · rwa [Request.word, Instruction.a_abc, Nat.mod_eq_of_lt hr]
  · rwa [Request.word, Instruction.ways_eq (Instruction.opcode?_abc ..), Instruction.a_abc,
      Instruction.c_abc]

/-- An instruction that may skip the one behind it. -/
theorem skip {hi : Nat} (hat : S.Has pc i) (habove : i.Above a)
    (hways : i.ways ≠ [] ∧ ∀ w ∈ i.ways, w.1 ≠ .jump) (hlt : pc + 1 < hi)
    (hrest : S.Region a (pc + 1) hi) : S.Region a pc hi := by
  refine .cons hat habove hways.1 (fun t ht => ?_) hrest
  obtain ⟨w, hw, rfl⟩ := List.mem_map.mp ht
  have hne := hways.2 w hw
  cases hturn : w.1 with
  | jump => exact absurd hturn hne
  | next | skip =>
    rw [Instruction.target]
    omega

/-- A jump further down. -/
theorem jump {hi target : Nat} (h : S.Jumps .jmp pc b target) (hgt : pc < target)
    (hle : target ≤ hi) (hrest : S.Region a (pc + 1) hi) : S.Region a pc hi := by
  have hop := Instruction.opcode?_asbx .jmp b ((target : Int) - pc - 1)
  have hways := Instruction.ways_eq hop
  refine .cons h.2 (Instruction.above_of_silent hop rfl a) (by simp [hways])
    (fun t ht => ?_) hrest
  rw [Instruction.targets, hways, Opcode.ways, List.map_singleton, List.mem_singleton,
    h.target_eq] at ht
  omega

end Site.Region

/-! ## Operands and operators -/

/-- The code of an expression is a region from its target on. -/
def Part.Stays (p : Part) : Prop :=
  ∀ ⦃S : Site⦄ ⦃opened : List Nat⦄ ⦃a : Nat⦄ ⦃n : Int⦄ ⦃lo hi : Mark⦄,
    S.Framed → S.Room (a + 1) →
    p.shape S opened a n (a + 1) lo hi → S.Region a lo.pc hi.pc

theorem Site.Room.lt (hroom : S.Room (a + 1)) (hmax : S.Framed) :
    a < 0x100 := by
  have hpeak := hroom.2
  unfold Site.Framed frameRegisters at hmax
  omega

theorem ConstantIs.region {k : Constant} (ha : a < 0x100) (h : ConstantIs S k a lo hi) :
    S.Region a lo.pc hi.pc := by
  have habove : ∀ op bx, (Instruction.abx op a bx).Above a := fun op bx =>
    (Instruction.above_first _).mono (by rw [Instruction.a_abx, Nat.mod_eq_of_lt ha])
  obtain ⟨i, -, ⟨-, hload⟩ | ⟨-, ⟨hload, -⟩, hextra⟩⟩ := h
  · exact .next hload (habove _ _) (Instruction.ways_eq (Instruction.opcode?_abx ..))
  · have hop := Instruction.opcode?_ax .extraArg i
    have hrest : S.Region a lo.next.pc hi.pc :=
      .next hextra (Instruction.above_of_silent hop rfl a) (Instruction.ways_eq hop)
    have hload : S.Has lo.pc (.abx .loadKx a 0) := hload
    refine .skip hload (habove _ _) ?_ ?_ hrest
    · simp [Instruction.ways_eq (Instruction.opcode?_abx .loadKx a 0)]
    · rw [hextra.2]
      exact Nat.lt_succ_self _

theorem Part.constant_stays (e : Expr) (k : Constant) : (Part.constant e k).Stays :=
  fun _ _ _ _ _ _ hmax hroom h => ConstantIs.region (hroom.lt hmax) h

theorem OperandIs.region (hp : p.Stays) (hmax : S.Framed)
    {kinds : OperandKinds} {o : Operand} {used' : Nat} (ha : a ≤ used)
    (h : OperandIs S opened p kinds used lo o used' hi) : S.Region a lo.pc hi.pc ∧ a ≤ used' := by
  cases h with
  | constant | register | upvalue => exact ⟨.refl a _, ha⟩
  | fresh hroom hload => exact ⟨(hp hmax hroom hload).mono ha, Nat.le_succ_of_le ha⟩

theorem fieldRead_region {t k : Operand} (ha : a < 0x100) (h : S.Writes (fieldRead a t k) lo hi) :
    S.Region a lo.pc hi.pc := by
  cases t <;> exact .abc h rfl ha le_rfl

theorem NameIs.region {x : String} (hmax : S.Framed)
    (ha : a < 0x100) (hused : a ≤ used) (h : NameIs S opened x a used lo hi) :
    S.Region a lo.pc hi.pc := by
  cases h with
  | register _ hcode => exact .abc hcode rfl ha le_rfl
  | upvalue _ _ hcode => exact .abc hcode rfl ha le_rfl
  | global _ _ _ hkey hcode =>
    exact (hkey.region (Part.constant_stays _ _) hmax hused).1.trans (fieldRead_region ha hcode)

theorem IndexIs.region {table key : Part} (ht : table.Stays) (hk : key.Stays)
    (hmax : S.Framed) (ha : a < 0x100) (hused : a ≤ used)
    (h : IndexIs S opened table key a used lo hi) : S.Region a lo.pc hi.pc := by
  obtain ⟨t, k, used₁, used₂, mid₁, mid₂, htable, hkey, hcode⟩ := h
  obtain ⟨hfirst, hused₁⟩ := htable.region ht hmax hused
  exact hfirst.trans ((hkey.region hk hmax hused₁).1.trans (fieldRead_region ha hcode))

theorem UnaryIs.region {op : UnaryOp} (hp : p.Stays)
    (hmax : S.Framed) (ha : a < 0x100) (hused : a ≤ used)
    (h : UnaryIs S opened op p a used lo hi) : S.Region a lo.pc hi.pc := by
  obtain ⟨b, used', mid, hoperand, hcode⟩ := h
  refine (hoperand.region hp hmax hused).1.trans (.abc hcode ?_ ha le_rfl)
  cases op <;> rfl

theorem ShortCircuitIs.region {keep : Nat} (hl : left.Stays) (hr : right.Stays)
    (hmax : S.Framed) (ha : a < 0x100) (hused : a ≤ used)
    (h : ShortCircuitIs S opened keep left right a used lo hi) : S.Region a lo.pc hi.pc := by
  obtain ⟨b, c, used₁, used₂, mid₁, mid₂, hleft, ⟨htest, -⟩, hjump, hright, hmove⟩ := h
  have hload : S.Region a mid₁.next.next.pc hi.pc :=
    (hright.region hr hmax hused).1.trans (.abc hmove rfl ha le_rfl)
  have hle := hload.le
  simp only [Mark.pc_next] at hle hjump
  have hleave : S.Region a (mid₁.pc + 1) hi.pc := .jump hjump (by omega) le_rfl hload
  have hskip : S.Region a mid₁.pc hi.pc := by
    have htest : S.Has mid₁.pc (.abc .testSet a b.field keep) := htest
    refine .skip htest ((Instruction.above_first _).mono ?_) ?_ (by omega) hleave
    · rw [Instruction.a_abc, Nat.mod_eq_of_lt ha]
    · simp [Instruction.ways_eq (Instruction.opcode?_abc .testSet a b.field keep)]
  exact (hleft.region hl hmax hused).1.trans hskip

/-- A comparison jumps over the first of the two ways to load its outcome, and that over
the second. -/
theorem compare_region {outcome left right : Nat} (ha : a < 0x100)
    (hop : op = .eq ∨ op = .lt ∨ op = .le) (htest : S.Has lo.pc (.abc op outcome left right))
    (hjump : S.Writes (.asbx .jmp 0 1) lo.next lo.next.next)
    (hfalse : S.Has (lo.pc + 2) (.abc .loadBool a 0 1))
    (htrue : S.Writes (.abc .loadBool a 1 0) lo.next.next.next hi) : S.Region a lo.pc hi.pc := by
  have hhi : hi.pc = lo.pc + 4 := by rw [htrue.2]; rfl
  have hjumps : S.Jumps .jmp (lo.pc + 1) 0 (lo.pc + 3) :=
    hjump.jumps (by rw [Mark.pc_next]; omega) (by decide)
  have h₃ : S.Region a (lo.pc + 3) hi.pc := .abc htrue rfl ha le_rfl
  have h₂ : S.Region a (lo.pc + 2) hi.pc := by
    refine .skip hfalse ((Instruction.above_first _).mono ?_) ?_ (by omega) h₃
    · rw [Instruction.a_abc, Nat.mod_eq_of_lt ha]
    · simp [Instruction.ways_eq (Instruction.opcode?_abc .loadBool a 0 1)]
  have h₁ : S.Region a (lo.pc + 1) hi.pc := .jump hjumps (by omega) (by omega) h₂
  have hcode := Instruction.opcode?_abc op outcome left right
  refine .skip htest (Instruction.above_of_silent hcode ?_ a) ?_ (by omega) h₁
  · rcases hop with rfl | rfl | rfl <;> rfl
  · rw [Instruction.ways_eq hcode]
    rcases hop with rfl | rfl | rfl <;> simp

theorem CombinedIs.region {op : BinaryOp} (ha : a < 0x100) (h : CombinedIs S op a b c lo hi) :
    S.Region a lo.pc hi.pc := by
  rw [CombinedIs] at h
  split at h
  · next code hcode =>
    refine .abc h ?_ ha le_rfl
    cases op <;> simp only [Emit.arithmetic?, Option.some.injEq, reduceCtorEq] at hcode <;>
      subst hcode <;> rfl
  · split at h
    · next code outcome left right htest =>
      obtain ⟨hcompare, hjump, hfalse, htrue⟩ := h
      refine compare_region ha ?_ hcompare.has hjump hfalse.has htrue
      cases op <;> simp only [Emit.comparison?, Option.some.injEq, Prod.mk.injEq, reduceCtorEq]
        at htest <;> simp [← htest.1]
    · rw [h]
      exact .refl a _

theorem BinaryIs.region {op : BinaryOp} (hl : left.Stays) (hr : right.Stays)
    (hmax : S.Framed) (ha : a < 0x100) (hused : a ≤ used)
    (h : BinaryIs S opened op left right a used lo hi) : S.Region a lo.pc hi.pc := by
  rw [BinaryIs.eq_def] at h
  split at h
  · exact ShortCircuitIs.region hl hr hmax ha hused h
  · exact ShortCircuitIs.region hl hr hmax ha hused h
  · obtain ⟨b, c, used₁, used₂, mid₁, mid₂, hleft, hright, hcode⟩ := h
    obtain ⟨hfirst, hused₁⟩ := hleft.region hl hmax hused
    exact hfirst.trans ((hright.region hr hmax hused₁).1.trans (hcode.region ha))

/-! ## Rows of values -/

theorem EachIs.region {lastWant : Int} (hparts : ∀ p ∈ parts, p.Stays)
    (hmax : S.Framed)
    (h : EachIs S opened lastWant parts used lo hi) : S.Region used lo.pc hi.pc := by
  induction parts generalizing used lo with
  | nil =>
    obtain rfl : hi = lo := h
    exact .refl used _
  | cons p rest ih =>
    rw [List.forall_mem_cons] at hparts
    cases rest with
    | nil => exact hparts.1 hmax h.1 h.2
    | cons q rest =>
      obtain ⟨mid, hone, hfirst, hrest⟩ := h
      exact (hparts.1 hmax hone hfirst).trans ((ih hparts.2 hrest).mono (Nat.le_succ _))

theorem AllIs.region (hparts : ∀ p ∈ parts, p.Stays)
    (hmax : S.Framed) (h : AllIs S opened parts n used lo hi) :
    S.Region used lo.pc hi.pc := by
  rw [AllIs] at h
  split at h <;> exact h.1.region hparts hmax

theorem ConcatIs.region (hparts : ∀ p ∈ parts, p.Stays)
    (hmax : S.Framed) (ha : a < 0x100) (hused : a ≤ used)
    (h : ConcatIs S opened parts a used lo hi) : S.Region a lo.pc hi.pc := by
  obtain ⟨mid, heach, hcode⟩ := h
  exact ((heach.region hparts hmax).mono hused).trans (.abc hcode rfl ha le_rfl)

/-! ## Table constructors -/

def FieldPart.Stays : FieldPart → Prop
  | .item value => value.Stays
  | .entry key value => key.Stays ∧ value.Stays

/-- The items wait above the table until their batch is stored. -/
theorem FieldsAre.region {total done : Nat} (hfields : ∀ f ∈ fields, f.Stays)
    (hmax : S.Framed) (ha : a < 0x100)
    (htotal : done + FieldPart.items fields = total) (hused : a + 1 + waiting total done ≤ used)
    (h : FieldsAre S opened a total fields done used lo hi) : S.Region a lo.pc hi.pc := by
  induction fields generalizing done used lo with
  | nil =>
    obtain rfl : hi = lo := h
    exact .refl a _
  | cons f rest ih =>
    rw [List.forall_mem_cons] at hfields
    cases f with
    | item value =>
      obtain ⟨mid, hone, hload, hflush⟩ := h
      have hitems : FieldPart.items (.item value :: rest) = FieldPart.items rest + 1 := rfl
      have hwait : waiting total done = done % batchSize := if_neg (by omega)
      have hbatch := batchOf_succ done
      have hitem : S.Region a lo.pc mid.pc := (hfields.1 hmax hone hload).mono (by omega)
      split at hflush
      · next hfull =>
        obtain ⟨hstore, hrest⟩ := hflush
        have hnone : waiting total (done + 1) = 0 := waiting_of_full hfull
        have hstored : S.Region a mid.pc mid.next.pc := .abc hstore rfl ha le_rfl
        exact hitem.trans (hstored.trans (ih hfields.2 (by omega) (by omega) hrest))
      · next hpart =>
        have hmore : waiting total (done + 1) = done % batchSize + 1 := waiting_of_part hpart
        exact hitem.trans (ih hfields.2 (by omega) (by omega) hflush)
    | entry key value =>
      obtain ⟨b, c, used₁, used₂, mid₁, mid₂, hkey, hvalue, hstore, hrest⟩ := h
      obtain ⟨hfirst, hused₁⟩ := hkey.region hfields.1.1 hmax (show a ≤ used by omega)
      have hsecond := (hvalue.region hfields.1.2 hmax hused₁).1
      have hstored : S.Region a mid₂.pc mid₂.next.pc := .abc hstore rfl ha le_rfl
      exact hfirst.trans (hsecond.trans (hstored.trans (ih hfields.2 htotal hused hrest)))

theorem TableIs.region (hfields : ∀ f ∈ fields, f.Stays)
    (hmax : S.Framed) (ha : a < 0x100)
    (h : TableIs S opened fields a (a + 1) lo hi) : S.Region a lo.pc hi.pc := by
  obtain ⟨hnew, hstore⟩ := h
  have hnone : waiting (FieldPart.items fields) 0 = 0 := waiting_zero _
  have hfirst : S.Region a lo.pc lo.next.pc := .abc hnew rfl ha le_rfl
  exact hfirst.trans (FieldsAre.region hfields hmax ha (Nat.zero_add _) (by rw [hnone]) hstore)

/-! ## Calls and functions -/

theorem LaidOutIs.region (hc : callee.Stays) (hargs : ∀ p ∈ args, p.Stays)
    (hmax : S.Framed) (hroom : S.Room (a + 1))
    (h : LaidOutIs S opened callee method args a n (a + 1) lo hi) : S.Region a lo.pc hi.pc := by
  obtain ⟨mid₁, mid₂, used', count, hcallee, hmethod, hall, -⟩ := h
  have hreceiver : S.Region a mid₁.pc mid₂.pc ∧ a ≤ used' := by
    cases method with
    | none =>
      obtain ⟨rfl, rfl⟩ := hmethod
      exact ⟨.refl a _, Nat.le_succ a⟩
    | some m =>
      obtain ⟨⟨key, used'', mid, -, hkey, hcode⟩, rfl⟩ := hmethod
      have hfirst := (hkey.region (Part.constant_stays _ _) hmax (show a ≤ a + 1 + 1 by omega)).1
      exact ⟨hfirst.trans (.abc hcode rfl (hroom.lt hmax) le_rfl), by omega⟩
  have hrest := (hall.region hargs hmax).mono hreceiver.2
  exact (hc hmax hroom hcallee).trans (hreceiver.1.trans hrest)

theorem CallIs.region (hc : callee.Stays) (hargs : ∀ p ∈ args, p.Stays)
    (hmax : S.Framed) (hroom : S.Room (a + 1))
    (h : CallIs S opened callee method args a want (a + 1) lo hi) : S.Region a lo.pc hi.pc := by
  obtain ⟨n, mid, hlaid, hcode⟩ := h
  exact (hlaid.region hc hargs hmax hroom).trans (.abc hcode rfl (hroom.lt hmax) le_rfl)

theorem FunctionIs.region {written : Site → Prop} (ha : a < 0x100)
    (h : FunctionIs S opened written a lo hi) : S.Region a lo.pc hi.pc := by
  obtain ⟨inner, -, hwrites, rfl, -⟩ := h
  have habove : (Instruction.abx .closure a lo.nested).Above a :=
    (Instruction.above_first _).mono (by rw [Instruction.a_abx, Nat.mod_eq_of_lt ha])
  have hregion := Site.Region.next hwrites habove (Instruction.ways_eq (Instruction.opcode?_abx ..))
  exact hregion

/-! ## The recursion -/

mutual

theorem Expr.stays : ∀ e : Expr, (Part.mk e e.shape).Stays
  | .nil | .vararg => fun _ _ _ _ _ _ hmax hroom h => .abc h rfl (hroom.lt hmax) le_rfl
  | .boolean _ => fun _ _ _ _ _ _ hmax hroom h => .abc h rfl (hroom.lt hmax) le_rfl
  | .integer _ | .float _ | .string _ => fun _ _ _ _ _ _ hmax hroom h =>
    ConstantIs.region (hroom.lt hmax) h
  | .name _ => fun _ _ _ _ _ _ hmax hroom h =>
    NameIs.region hmax (hroom.lt hmax) (Nat.le_succ _) h
  | .paren inner => fun _ _ _ _ _ _ hmax hroom h => Expr.stays inner hmax hroom h
  | .call c => fun _ _ _ _ _ _ hmax hroom h =>
    CallIs.region c.callee_stays c.args_stay hmax hroom h
  | .function _ => fun _ _ _ _ _ _ hmax hroom h => FunctionIs.region (hroom.lt hmax) h
  | .table fields => fun _ _ _ _ _ _ hmax hroom h =>
    TableIs.region (Field.parts_stay fields) hmax (hroom.lt hmax) h
  | .index table key => fun _ _ _ _ _ _ hmax hroom h =>
    IndexIs.region (Expr.stays table) (Expr.stays key) hmax (hroom.lt hmax) (Nat.le_succ _) h
  | .unary _ e => fun _ _ _ _ _ _ hmax hroom h =>
    UnaryIs.region (Expr.stays e) hmax (hroom.lt hmax) (Nat.le_succ _) h
  | .binary _ left right => fun _ _ _ _ _ _ hmax hroom h =>
    BinaryIs.region (Expr.stays left) (Expr.stays right) hmax (hroom.lt hmax) (Nat.le_succ _) h
  | .concat operands => fun _ _ _ _ _ _ hmax hroom h =>
    ConcatIs.region (Expr.parts_stay operands) hmax (hroom.lt hmax) (Nat.le_succ _) h

theorem Expr.parts_stay : ∀ es : List Expr, ∀ p ∈ Expr.parts es, p.Stays
  | [] => by simp [Expr.parts]
  | e :: rest => by
      rw [Expr.parts, List.forall_mem_cons]
      exact ⟨Expr.stays e, Expr.parts_stay rest⟩

theorem Field.parts_stay : ∀ fields : List Field, ∀ f ∈ Field.parts fields, f.Stays
  | [] => by simp [Field.parts]
  | .item value :: rest => by
      rw [Field.parts, List.forall_mem_cons]
      exact ⟨Expr.stays value, Field.parts_stay rest⟩
  | .entry key value :: rest => by
      rw [Field.parts, List.forall_mem_cons]
      exact ⟨⟨Expr.stays key, Expr.stays value⟩, Field.parts_stay rest⟩

theorem Call.callee_stays : ∀ c : Call, c.calleePart.Stays
  | ⟨callee, _, _, _⟩ => Expr.stays callee

theorem Call.args_stay : ∀ c : Call, ∀ p ∈ c.argParts, p.Stays
  | ⟨_, _, args, _⟩ => Expr.parts_stay args

end

end LuaLowering
