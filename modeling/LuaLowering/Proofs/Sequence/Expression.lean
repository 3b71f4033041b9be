import LuaLowering.Proofs.Sequence.Linked

/-!
# Expressions in sequence

The code of an expression takes all that it leaves open itself. Only when all
values of a call or of `...` are wanted does it end with something open, which is
then what the instruction behind it is there for: a call for its last argument, a
table constructor for its last item, a return for its last value.
-/

namespace LuaLowering

variable {S : Site} {fs : List FunctionBody} {opened : List Nat} {a b used : Nat} {want : Int}
  {lo mid hi : Mark} {p left right callee : Part} {op : BinaryOp} {parts args : List Part} {n : Int}
  {fields : List FieldPart} {method : Option String}

/-- What is open when values have been loaded from a register on. -/
def openingOf (a : Nat) (want : Int) : Option Opening := if want < 0 then some ⟨a, false⟩ else none

theorem openingOf_of_nonneg (h : 0 ≤ want) : openingOf a want = none := if_neg (by omega)

theorem openingOf_congr {want' : Int} (h : want < 0 ↔ want' < 0) :
    openingOf a want = openingOf a want' := by
  simp only [openingOf, h]

/-- The code of an expression leaves open what it is asked for, and nothing else. -/
def Part.Links (fs : List FunctionBody) (p : Part) : Prop :=
  ∀ ⦃S : Site⦄ ⦃opened : List Nat⦄ ⦃a : Nat⦄ ⦃n : Int⦄ ⦃lo hi : Mark⦄,
    S.Framed → S.Room (a + 1) → S.Room (a + n.toNat) → -1 ≤ n →
    p.exp.isMulti = true ∨ n = 1 → p.shape S opened a n (a + 1) lo hi →
    Linked S fs lo hi (openingOf a n)

/-- Where one value is wanted, nothing is left open. -/
theorem Part.Links.one (hp : p.Links fs) (hmax : S.Framed)
    (hroom : S.Room (a + 1)) (h : p.shape S opened a 1 (a + 1) lo hi) : Linked S fs lo hi none :=
  hp (n := 1) hmax hroom hroom (by decide) (Or.inr rfl) h

/-- An expression with exactly one value. -/
theorem Part.Links.single (hsingle : p.exp.isMulti = false)
    (h : ∀ ⦃S : Site⦄ ⦃opened : List Nat⦄ ⦃a : Nat⦄ ⦃lo hi : Mark⦄,
      S.Framed → S.Room (a + 1) →
      p.shape S opened a 1 (a + 1) lo hi → Linked S fs lo hi none) : p.Links fs := by
  intro S opened a want lo hi hmax hroom _ _ hwant hshape
  obtain rfl : want = 1 := hwant.resolve_left (by simp [hsingle])
  exact h hmax hroom hshape

/-! ## Operands and operators -/

theorem ConstantIs.links {k : Constant} (h : ConstantIs S k a lo hi) : Linked S fs lo hi none := by
  obtain ⟨i, -, ⟨-, hload⟩ | ⟨-, ⟨hload, -⟩, hextra⟩⟩ := h
  · exact .plain hload (Instruction.opcode?_abx ..) rfl
  · have hjoint : S.Joint (lo.pc + 2) := .after_plain hextra.1 (Instruction.opcode?_ax ..) rfl
    have hfar : Linked S fs lo lo.next none :=
      .skip hload (Instruction.opcode?_abx ..) rfl rfl (by simp) hjoint
    exact hfar.trans (.plain hextra (Instruction.opcode?_ax ..) rfl)

theorem Part.constant_links (e : Expr) (k : Constant) (he : e.isMulti = false) :
    (Part.constant e k).Links fs :=
  .single he fun _ _ _ _ _ _ _ h => ConstantIs.links h

theorem OperandIs.links (hp : p.Links fs) (hmax : S.Framed)
    {kinds : OperandKinds} {o : Operand} {used' : Nat}
    (h : OperandIs S opened p kinds used lo o used' hi) : Linked S fs lo hi none := by
  cases h with
  | constant | register | upvalue => exact .nil
  | fresh hroom hload => exact hp.one hmax hroom hload

theorem fieldRead_links {t k : Operand} (h : S.Writes (fieldRead a t k) lo hi) :
    Linked S fs lo hi none := by
  cases t <;> exact .plain h (Instruction.opcode?_abc ..) rfl

theorem NameIs.links (hmax : S.Framed) {x : String}
    (h : NameIs S opened x a used lo hi) : Linked S fs lo hi none := by
  cases h with
  | register _ hcode => exact .plain hcode (Instruction.opcode?_abc ..) rfl
  | upvalue _ _ hcode => exact .plain hcode (Instruction.opcode?_abc ..) rfl
  | global _ _ _ hkey hcode =>
    exact (hkey.links (Part.constant_links _ _ rfl) hmax).trans (fieldRead_links hcode)

theorem IndexIs.links {table key : Part} (ht : table.Links fs) (hk : key.Links fs)
    (hmax : S.Framed)
    (h : IndexIs S opened table key a used lo hi) : Linked S fs lo hi none := by
  obtain ⟨t, k, used₁, used₂, mid₁, mid₂, htable, hkey, hcode⟩ := h
  exact (htable.links ht hmax).trans ((hkey.links hk hmax).trans (fieldRead_links hcode))

theorem UnaryIs.links {op : UnaryOp} (hp : p.Links fs)
    (hmax : S.Framed) (h : UnaryIs S opened op p a used lo hi) :
    Linked S fs lo hi none := by
  obtain ⟨b, used', mid, hoperand, hcode⟩ := h
  refine (hoperand.links hp hmax).trans (.plain hcode (Instruction.opcode?_abc ..) ?_)
  cases op <;> rfl

theorem ShortCircuitIs.links {keep : Nat} (hl : left.Links fs) (hr : right.Links fs)
    (hmax : S.Framed)
    (h : ShortCircuitIs S opened keep left right a used lo hi) : Linked S fs lo hi none := by
  obtain ⟨b, c, used₁, used₂, mid₁, mid₂, hleft, ⟨htest, -⟩, hjump, hright, hmove⟩ := h
  -- the jump past the right operand lands behind the move
  have hpast : S.Joint hi.pc := by
    rw [hmove.2]
    exact .after_plain hmove.1 (Instruction.opcode?_abc ..) rfl
  have hskip : Linked S fs mid₁ mid₁.next none :=
    .skip htest (Instruction.opcode?_abc ..) rfl rfl (by simp) (.after_jump hjump rfl)
  have hleave : Linked S fs mid₁.next mid₁.next.next none := .jump hjump rfl hpast
  have hload := (hright.links hr hmax).trans (.plain hmove (Instruction.opcode?_abc ..) rfl)
  exact (hleft.links hl hmax).trans (hskip.trans (hleave.trans hload))

/-- A comparison jumps over the first of the two ways to load its outcome, and that
over the second. -/
theorem compare_links {op : Opcode} {outcome left right : Nat}
    (hop : op = .eq ∨ op = .lt ∨ op = .le) (htest : S.Has lo.pc (.abc op outcome left right))
    (hjump : S.Writes (.asbx .jmp 0 1) lo.next lo.next.next)
    (hfalse : S.Has (lo.pc + 2) (.abc .loadBool a 0 1))
    (htrue : S.Writes (.abc .loadBool a 1 0) lo.next.next.next hi) : Linked S fs lo hi none := by
  have hload : ∀ b c : Nat, (Instruction.abc .loadBool a b c).opens? = none :=
    fun b c => Instruction.opens?_eq (Instruction.opcode?_abc ..)
  have hjumps : S.Jumps .jmp lo.next.pc 0 (lo.pc + 3) :=
    hjump.jumps (by rw [Mark.pc_next]; omega) (by decide)
  have h₁ : Linked S fs lo lo.next none := by
    refine .skip htest (Instruction.opcode?_abc ..) ?_ ?_ ?_ (.after_jump hjumps rfl) <;>
      rcases hop with rfl | rfl | rfl <;> simp [Opcode.opens?, Opcode.takesOpen]
  have h₂ : Linked S fs lo.next lo.next.next none := .jump hjumps rfl (.after hfalse (hload 0 1))
  have h₃ : Linked S fs lo.next.next lo.next.next.next none :=
    .skip hfalse (Instruction.opcode?_abc ..) rfl rfl (by simp)
      (.after htrue.1 (hload 1 0))
  exact h₁.trans (h₂.trans (h₃.trans (.loadBool htrue)))

theorem CombinedIs.links {c : Nat} (h : CombinedIs S op a b c lo hi) : Linked S fs lo hi none := by
  rw [CombinedIs] at h
  split at h
  · next code hcode =>
    refine .plain h (Instruction.opcode?_abc ..) ?_
    cases op <;> simp only [Emit.arithmetic?, Option.some.injEq, reduceCtorEq] at hcode <;>
      subst hcode <;> rfl
  · split at h
    · next code outcome left right htest =>
      obtain ⟨hcompare, hjump, hfalse, htrue⟩ := h
      refine compare_links ?_ hcompare.has hjump hfalse.has htrue
      cases op <;> simp only [Emit.comparison?, Option.some.injEq, Prod.mk.injEq, reduceCtorEq]
        at htest <;> simp [← htest.1]
    · rw [h]
      exact .nil

theorem BinaryIs.links (hl : left.Links fs) (hr : right.Links fs)
    (hmax : S.Framed)
    (h : BinaryIs S opened op left right a used lo hi) : Linked S fs lo hi none := by
  rw [BinaryIs.eq_def] at h
  split at h
  · exact ShortCircuitIs.links hl hr hmax h
  · exact ShortCircuitIs.links hl hr hmax h
  · obtain ⟨b, c, used₁, used₂, mid₁, mid₂, hleft, hright, hcode⟩ := h
    exact (hleft.links hl hmax).trans ((hright.links hr hmax).trans hcode.links)

/-! ## Rows of values -/

/-- Only the last part of a row can leave anything open, from its own register on. -/
theorem EachIs.links {lastWant : Int} (hparts : ∀ p ∈ parts, p.Links fs)
    (hmax : S.Framed)
    (hlast : Part.expands parts = true ∨ lastWant = 1) (hwant : -1 ≤ lastWant)
    (hroom : S.Room (used + (totalWant parts.length lastWant).toNat))
    (h : EachIs S opened lastWant parts used lo hi) :
    ∃ r, used ≤ r ∧ Linked S fs lo hi (openingOf r lastWant) := by
  induction parts generalizing used lo with
  | nil =>
    obtain rfl : hi = lo := h
    obtain rfl : lastWant = 1 := hlast.resolve_left nofun
    exact ⟨used, le_rfl, .nil⟩
  | cons p rest ih =>
    rw [List.forall_mem_cons] at hparts
    cases rest with
    | nil =>
      rw [List.length_singleton, totalWant_one lastWant hwant] at hroom
      exact ⟨used, le_rfl, hparts.1 hmax h.1 hroom hwant hlast h.2⟩
    | cons q rest =>
      obtain ⟨mid, hone, hfirst, hrest⟩ := h
      have hmore : S.Room (used + 1 + (totalWant (q :: rest).length lastWant).toNat) :=
        room_totalWant hone hroom
      obtain ⟨r, hle, hlinked⟩ := ih hparts.2 hlast hmore hrest
      exact ⟨r, by omega, (hparts.1.one hmax hone hfirst).trans hlinked⟩

theorem AllIs.links (hparts : ∀ p ∈ parts, p.Links fs)
    (hmax : S.Framed) (hroom : S.Room used)
    (h : AllIs S opened parts n used lo hi) :
    ∃ r, used ≤ r ∧ Linked S fs lo hi (openingOf r n) := by
  obtain ⟨lastWant, heach, hlast, hwant, rfl, hneg, -, hroom', -⟩ := h.each hroom
  obtain ⟨r, hle, hlinked⟩ := heach.links hparts hmax hlast hwant hroom'
  exact ⟨r, hle, openingOf_congr hneg ▸ hlinked⟩

theorem AdjustedIs.links {n : Nat} (hparts : ∀ p ∈ parts, p.Links fs)
    (hmax : S.Framed) (hroom : S.Room used)
    (h : AdjustedIs S opened n parts used lo hi) : Linked S fs lo hi none := by
  obtain ⟨-, parts', lastWant, mid, hsub, heach, hlast, hwant, htotal, hrest⟩ := h.each hroom
  obtain ⟨r, -, hlinked⟩ :=
    heach.links (fun p hp => hparts p (hsub p hp)) hmax hlast (by omega) htotal
  rw [openingOf_of_nonneg hwant] at hlinked
  rcases hrest with ⟨rfl, -⟩ | ⟨-, -, hnil⟩
  · exact hlinked
  · exact hlinked.trans (.plain hnil (Instruction.opcode?_abc ..) rfl)

theorem ConcatIs.links (hparts : ∀ p ∈ parts, p.Links fs)
    (hmax : S.Framed) (hroom : S.Room (a + 1))
    (h : ConcatIs S opened parts a (a + 1) lo hi) : Linked S fs lo hi none := by
  obtain ⟨mid, heach, hcode⟩ := h
  have hroom' : S.Room (a + 1 + (totalWant parts.length 1).toNat) := by
    rw [totalWant_each]
    by_cases hne : parts = []
    · rw [hne]
      exact hroom
    · exact heach.room hne
  obtain ⟨r, -, hlinked⟩ := heach.links hparts hmax (Or.inr rfl) (by decide) hroom'
  exact hlinked.trans (.plain hcode (Instruction.opcode?_abc ..) rfl)

/-! ## Table constructors -/

/-- The parts of a field leave open what they are asked for. -/
def FieldPart.Links (fs : List FunctionBody) : FieldPart → Prop
  | .item value => value.Links fs
  | .entry key value => key.Links fs ∧ value.Links fs

/-- A batch of items is stored, or all that are open. -/
theorem setList_links {n batch : Nat} {o : Option Opening} (h : Linked S fs lo mid o)
    (hn : n < 0x200) (ha : a < 0x100)
    (ho : if n = 0 then ∃ r, a < r ∧ o = some ⟨r, false⟩ else o = none)
    (hcode : S.Writes (.abc .setList a n batch) mid hi) : Linked S fs lo hi none := by
  obtain ⟨hcode, rfl⟩ := hcode
  have hop := Instruction.opcode?_abc .setList a n batch
  have htakes : (Instruction.abc .setList a n batch).takesOpen = (n == 0) := by
    rw [Instruction.takesOpen_eq hop, Instruction.b_abc, Nat.mod_eq_of_lt hn]
    rfl
  have hnone : (Instruction.abc .setList a n batch).opens? = none := Instruction.opens?_eq hop
  rw [← hnone]
  refine .step h hcode ?_ (by simp [Instruction.leaps_eq hop])
  split at ho
  · next hzero =>
    obtain ⟨r, hlt, rfl⟩ := ho
    refine ⟨by rw [htakes, hzero]; rfl, ?_, (by simp)⟩
    simp only [hop, Instruction.a_abc, Nat.mod_eq_of_lt ha, Option.some.injEq,
      reduceCtorEq, if_false]
    exact hlt
  · next hpos =>
    rw [ho]
    simpa [Instruction.Follows, htakes] using hpos

/-- The items wait above the table until their batch is stored. -/
theorem FieldsAre.links {total done : Nat} (hfields : ∀ f ∈ fields, f.Links fs)
    (hmax : S.Framed) (ha : a < 0x100)
    (htotal : done + FieldPart.items fields = total) (hused : used = a + 1 + waiting total done)
    (h : FieldsAre S opened a total fields done used lo hi) : Linked S fs lo hi none := by
  induction fields generalizing done used lo with
  | nil =>
    obtain rfl : hi = lo := h
    exact .nil
  | cons f rest ih =>
    rw [List.forall_mem_cons] at hfields
    cases f with
    | item value =>
      obtain ⟨mid, hone, hload, hflush⟩ := h
      have hitems : FieldPart.items (.item value :: rest) = FieldPart.items rest + 1 := rfl
      have hwait : waiting total done = done % batchSize := if_neg (by omega)
      have hbatch := batchOf_succ done
      have hsmall : batchOf (done + 1) < 0x200 := by
        unfold batchSize at hbatch
        omega
      generalize hspread : (rest.isEmpty && value.exp.isMulti) = spread at hload hflush
      cases spread with
      | true =>
        rw [Bool.and_eq_true, List.isEmpty_iff] at hspread
        obtain ⟨rfl, hmulti⟩ := hspread
        have hlast : done + 1 = total := htotal
        rw [if_pos (Or.inr hlast)] at hflush
        obtain ⟨hstore, rfl⟩ := hflush
        have hopen := hfields.1 hmax hone (hone.mono (Nat.le_succ _)) (by decide)
          (Or.inl hmulti) hload
        exact setList_links (n := 0) hopen (by decide) ha ⟨used, by omega, rfl⟩ hstore
      | false =>
        have hitem := hfields.1.one hmax hone hload
        simp only [Bool.false_eq_true, if_false] at hflush
        split at hflush
        · next hfull =>
          obtain ⟨hstore, hrest⟩ := hflush
          have hnone : waiting total (done + 1) = 0 := waiting_of_full hfull
          have hbatched := setList_links (n := batchOf (done + 1)) hitem hsmall ha
            (by rw [if_neg (by omega)]) hstore
          exact hbatched.trans (ih hfields.2 (by omega) (by omega) hrest)
        · next hpart =>
          have hmore : waiting total (done + 1) = done % batchSize + 1 := waiting_of_part hpart
          exact hitem.trans (ih hfields.2 (by omega) (by omega) hflush)
    | entry key value =>
      obtain ⟨b, c, used₁, used₂, mid₁, mid₂, hkey, hvalue, hstore, hrest⟩ := h
      have hentry := (hkey.links hfields.1.1 hmax).trans (hvalue.links hfields.1.2 hmax)
      have hstored := hentry.trans (.plain hstore (Instruction.opcode?_abc ..) rfl)
      exact hstored.trans (ih hfields.2 htotal hused hrest)

theorem TableIs.links (hfields : ∀ f ∈ fields, f.Links fs)
    (hmax : S.Framed) (hroom : S.Room (a + 1))
    (h : TableIs S opened fields a (a + 1) lo hi) : Linked S fs lo hi none := by
  obtain ⟨hnew, hstore⟩ := h
  have ha : a < S.peak := hroom.2
  have hnone : waiting (FieldPart.items fields) 0 = 0 := waiting_zero _
  unfold Site.Framed frameRegisters at hmax
  have hlinked := FieldsAre.links hfields hmax (by omega) (Nat.zero_add _) (by rw [hnone]) hstore
  exact Linked.trans (.plain hnew (Instruction.opcode?_abc ..) rfl) hlinked

/-! ## Calls and functions -/

/-- Values that are taken as a count field says: all that are open, or none that
are. -/
theorem follows_count {i : Instruction} {r : Nat} (hn : -1 ≤ n)
    (htakes : i.takesOpen = ((n + 1).toNat == 0))
    (habove : if i.opcode? = some .ret then i.a ≤ r else i.a < r) : i.Follows (openingOf r n) := by
  rw [openingOf]
  split
  · have hzero : (n + 1).toNat = 0 := by omega
    exact ⟨by simp [htakes, hzero], habove, nofun⟩
  · have hpos : (n + 1).toNat ≠ 0 := by omega
    simpa [Instruction.Follows, htakes] using hpos

/-- The function and the arguments of a call are loaded. Open arguments begin above
the function. -/
theorem LaidOutIs.links (hc : callee.Links fs) (hargs : ∀ p ∈ args, p.Links fs)
    (hmax : S.Framed) (hroom : S.Room (a + 1))
    (h : LaidOutIs S opened callee method args a n (a + 1) lo hi) :
    -1 ≤ n ∧ n < 0x1ff ∧ ∃ r, a < r ∧ Linked S fs lo hi (openingOf r n) := by
  obtain ⟨mid₁, mid₂, used', count, hcallee, hmethod, hall, hn⟩ := h
  have hreceiver : a < used' ∧ S.Room used' ∧ Linked S fs mid₁ mid₂ none := by
    cases method with
    | none =>
      obtain ⟨rfl, rfl⟩ := hmethod
      exact ⟨Nat.lt_succ_self _, hroom, .nil⟩
    | some m =>
      obtain ⟨⟨key, used'', mid, hroom', hkey, hcode⟩, rfl⟩ := hmethod
      have hself : Linked S fs mid₁ mid none := hkey.links (Part.constant_links _ _ rfl) hmax
      exact ⟨by omega, hroom', hself.trans (.plain hcode (Instruction.opcode?_abc ..) rfl)⟩
  obtain ⟨hlt, hroom', hlinked⟩ := hreceiver
  obtain ⟨lastWant, -, -, -, -, -, hcount, hroom'', -⟩ := hall.each hroom'
  obtain ⟨r, hle, hopen⟩ := hall.links hargs hmax hroom'
  have hbound : count.toNat ≤ 0xff := by
    have hpeak := hroom''.2
    unfold Site.Framed frameRegisters at hmax
    omega
  have hsame : (n < 0 ↔ count < 0) ∧ -1 ≤ n ∧ n < 0x1ff := by
    rw [hn]
    unfold allValues
    split <;> [omega; split <;> omega]
  refine ⟨hsame.2.1, hsame.2.2, r, by omega, ?_⟩
  rw [openingOf_congr hsame.1]
  exact (hc.one hmax hroom hcallee).trans (hlinked.trans hopen)

theorem CallIs.links (hc : callee.Links fs) (hargs : ∀ p ∈ args, p.Links fs)
    (hmax : S.Framed) (hroom : S.Room (a + 1))
    (hroom' : S.Room (a + want.toNat)) (hwant : -1 ≤ want)
    (h : CallIs S opened callee method args a want (a + 1) lo hi) :
    Linked S fs lo hi (openingOf a want) := by
  obtain ⟨n, mid, hlaid, hcode, rfl⟩ := h
  obtain ⟨hn, hlt, r, hr, hlinked⟩ := hlaid.links hc hargs hmax hroom
  have hpeak := hroom'.2
  have ha : a < S.peak := hroom.2
  unfold Site.Framed frameRegisters at hmax
  rw [countCode_eq hn hlt, countCode_eq hwant (by omega)] at hcode
  have hop := Instruction.opcode?_abc .call a (n + 1).toNat (want + 1).toNat
  have hamod : a % 0x100 = a := Nat.mod_eq_of_lt (by omega)
  have hbmod : (n + 1).toNat % 0x200 = (n + 1).toNat := Nat.mod_eq_of_lt (by omega)
  have hcmod : (want + 1).toNat % 0x200 = (want + 1).toNat := Nat.mod_eq_of_lt (by omega)
  have hopens : (Instruction.abc .call a (n + 1).toNat (want + 1).toNat).opens? =
      openingOf a want := by
    rw [Instruction.opens?_eq hop, Instruction.a_abc, Instruction.c_abc, hamod, hcmod, openingOf]
    have hzero : (want + 1).toNat = 0 ↔ want < 0 := by omega
    simp only [Opcode.opens?, hzero]
  rw [← hopens]
  refine .step hlinked hcode (follows_count hn ?_ ?_)
    (by simp [Instruction.leaps_eq hop])
  · rw [Instruction.takesOpen_eq hop, Instruction.b_abc, hbmod]
    rfl
  · simpa [hop, hamod] using hr

theorem vararg_links (hmax : S.Framed) (hroom : S.Room (a + 1))
    (hroom' : S.Room (a + want.toNat)) (hwant : -1 ≤ want)
    (hcode : S.Writes (.abc .vararg a (countCode want) 0) lo hi) :
    Linked S fs lo hi (openingOf a want) := by
  obtain ⟨hcode, rfl⟩ := hcode
  have hpeak := hroom'.2
  have ha : a < S.peak := hroom.2
  unfold Site.Framed frameRegisters at hmax
  rw [countCode_eq hwant (by omega)] at hcode
  have hop := Instruction.opcode?_abc .vararg a (want + 1).toNat 0
  have hamod : a % 0x100 = a := Nat.mod_eq_of_lt (by omega)
  have hbmod : (want + 1).toNat % 0x200 = (want + 1).toNat := Nat.mod_eq_of_lt (by omega)
  have hopens : (Instruction.abc .vararg a (want + 1).toNat 0).opens? = openingOf a want := by
    rw [Instruction.opens?_eq hop, Instruction.a_abc, Instruction.b_abc, hamod, hbmod, openingOf]
    have hzero : (want + 1).toNat = 0 ↔ want < 0 := by omega
    simp only [Opcode.opens?, hzero]
  rw [← hopens]
  exact .one hcode (Instruction.takesOpen_eq hop) (by simp [Instruction.leaps_eq hop])

theorem FunctionIs.links {f : FunctionBody} (hf : f.functions ⊆ fs)
    (h : FunctionIs S opened f.written a lo hi) : Linked S fs lo hi none := by
  obtain ⟨inner, hnested, hcode, rfl, -, hwritten⟩ := h
  exact .closure .nil hcode.has ⟨f, inner, _, hf, hnested, hwritten⟩

/-! ## The recursion -/

mutual

theorem Expr.links : ∀ e : Expr, e.functions ⊆ fs → (Part.mk e e.shape).Links fs
  | .nil, _ => .single rfl fun _ _ _ _ _ _ _ h => .plain h (Instruction.opcode?_abc ..) rfl
  | .boolean _, _ => .single rfl fun _ _ _ _ _ _ _ h => .loadBool h
  | .vararg, _ => fun _ _ _ _ _ _ hmax hroom hroom' hwant _ h =>
    vararg_links hmax hroom hroom' hwant h
  | .integer _, _ => .single rfl fun _ _ _ _ _ _ _ h => ConstantIs.links h
  | .float _, _ => .single rfl fun _ _ _ _ _ _ _ h => ConstantIs.links h
  | .string _, _ => .single rfl fun _ _ _ _ _ _ _ h => ConstantIs.links h
  | .name _, _ => .single rfl fun _ _ _ _ _ hmax _ h => NameIs.links hmax h
  | .paren inner, hi => .single rfl fun _ _ _ _ _ hmax hroom h =>
    (Expr.links inner hi).one hmax hroom h
  | .call c, hc => fun _ _ _ _ _ _ hmax hroom hroom' hwant _ h =>
    CallIs.links (c.callee_links hc) (c.args_links hc) hmax hroom hroom' hwant h
  | .function _, hf => .single rfl fun _ _ _ _ _ _ _ h => FunctionIs.links hf h
  | .table fields, hf => .single rfl fun _ _ _ _ _ hmax hroom h =>
    TableIs.links (Field.parts_links fields hf) hmax hroom h
  | .index table key, hp => .single rfl fun _ _ _ _ _ hmax _ h =>
    IndexIs.links (Expr.links table (List.append_subset.mp hp).1)
      (Expr.links key (List.append_subset.mp hp).2) hmax h
  | .unary _ e, he => .single rfl fun _ _ _ _ _ hmax _ h => UnaryIs.links (Expr.links e he) hmax h
  | .binary _ left right, hp => .single rfl fun _ _ _ _ _ hmax _ h =>
    BinaryIs.links (Expr.links left (List.append_subset.mp hp).1)
      (Expr.links right (List.append_subset.mp hp).2) hmax h
  | .concat operands, hp => .single rfl fun _ _ _ _ _ hmax hroom h =>
    ConcatIs.links (Expr.parts_links operands hp) hmax hroom h

theorem Expr.parts_links : ∀ es : List Expr, Expr.functionsIn es ⊆ fs →
    ∀ p ∈ Expr.parts es, p.Links fs
  | [], _ => by simp [Expr.parts]
  | e :: rest, h => by
      rw [Expr.functionsIn, List.append_subset] at h
      rw [Expr.parts, List.forall_mem_cons]
      exact ⟨Expr.links e h.1, Expr.parts_links rest h.2⟩

theorem Field.parts_links : ∀ fields : List Field, Field.functions fields ⊆ fs →
    ∀ f ∈ Field.parts fields, f.Links fs
  | [], _ => by simp [Field.parts]
  | .item value :: rest, h => by
      rw [Field.functions, List.append_subset] at h
      rw [Field.parts, List.forall_mem_cons]
      exact ⟨Expr.links value h.1, Field.parts_links rest h.2⟩
  | .entry key value :: rest, h => by
      rw [Field.functions, List.append_subset, List.append_subset] at h
      rw [Field.parts, List.forall_mem_cons]
      exact ⟨⟨Expr.links key h.1.1, Expr.links value h.1.2⟩, Field.parts_links rest h.2⟩

theorem Call.callee_links : ∀ c : Call, c.functions ⊆ fs → c.calleePart.Links fs
  | ⟨callee, _, _, _⟩, h => Expr.links callee (List.append_subset.mp h).1

theorem Call.args_links : ∀ c : Call, c.functions ⊆ fs → ∀ p ∈ c.argParts, p.Links fs
  | ⟨_, _, args, _⟩, h => Expr.parts_links args (List.append_subset.mp h).2

end

end LuaLowering
