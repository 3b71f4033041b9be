import LuaLowering.Proofs.Flow.Expression

/-!
# Statements as structured code

A statement begins with the registers of the open locals written, and so does the
next one. The shapes of loops and branches already have the form that `Flow` asks
for; what has to be shown is that their own instructions stand where they may.
-/

namespace LuaLowering

/-- The code of a statement is structured, where the open locals have the lowest
registers. -/
def StatShape.Flows (proper : Prop) (body : StatShape) : Prop :=
  ∀ ⦃S : Site⦄ ⦃exit : Option Exit⦄ ⦃P P' : Point⦄, S.Limited → S.Slotted P.opened →
    body S exit P P' → Flow S proper exit P P'

variable {S : Site} {proper : Prop} {exit : Option Exit} {P P' Q : Point} {K K' : Set Nat}
  {opened : List Nat} {a b used : Nat} {lo mid hi : Mark} {names : List String} {cond callee : Part}
  {target used' pc value : Nat} {body : StatShape} {n : Int} {values args : List Part} {op : Opcode}
  {address : Address} {targets : List TargetPart} {addresses : List Address}
  {method : Option String}

/-! ## Points between statements -/

theorem Site.Slotted.room (h : S.Slotted opened) : S.Room opened.length := by
  cases opened with
  | nil => exact ⟨Nat.zero_le _, Nat.zero_le _⟩
  | cons i is => exact h.2.1

theorem Site.Slotted.free (h : S.Slotted opened) (hS : S.Limited) :
    S.Free opened (Set.Iio opened.length) opened.length :=
  ⟨hS, h, fun _ hr => hr, le_rfl⟩

/-- Values loaded above the locals extend their row. -/
theorem Iio_subset_loaded (a n : Nat) : Set.Iio (a + n) ⊆ loaded (Set.Iio a) a n := by
  intro r hr
  rw [Set.mem_Iio] at hr
  rcases Nat.lt_or_ge r a with hlt | hge
  · exact Or.inl ⟨hlt, hlt⟩
  · exact Or.inr ⟨hge, Or.inr (by omega)⟩

theorem Declares.at {startPc : Nat} (h : Declares S startPc names P P') (m : Mark) :
    Declares S startPc names (P.at m) (P'.at m) := by
  induction names generalizing P with
  | nil =>
    obtain rfl : P' = P := h
    exact rfl
  | cons x rest ih =>
    obtain ⟨hv, hroom, hrest⟩ := h
    exact ⟨hv, hroom, ih hrest⟩

/-- Code that leaves the locals as they are. -/
theorem Flow.code (h : Code S proper P.opened P.held P.toMark hi K) (hK : P.held ⊆ K) :
    Flow S proper exit P (P.at hi) := by
  have hdecl : Declares S hi.pc [] (P.at hi) (P.at hi) := rfl
  refine .declare ?_ (Or.inl rfl) hdecl
  exact h.seq (.drop hK)

/-! ## Conditions -/

theorem TestIs.tested (hc : cond.Codes proper) (hS : S.Limited) (hslot : S.Slotted opened)
    {r : Operand} (hoperand : OperandIs S opened cond .register opened.length lo r used' mid)
    (htest : S.Has mid.pc (.abc .test r.field 0 0)) (hjump : S.Jumps .jmp (mid.pc + 1) a target) :
    Tested S proper opened a target lo mid.next.next := by
  obtain ⟨hle, K, hcode, hkeep, hat⟩ := hoperand.codes hc (hslot.free hS)
  obtain ⟨hr, -, hr'⟩ := hoperand.register_at hat
  have hmax := hS.peak_le
  have hadm : S.Admits .test r.field 0 0 K := by
    refine ⟨by omega, by omega, by omega, by simp, ?_, ?_, ?_, ?_⟩ <;>
      simp [hr, hr']
  exact ⟨hcode, fun r hr => hkeep r hr hr, hadm.does htest, Instruction.opcode?_abc .., hjump⟩

/-! ## Scopes, branches and loops -/

theorem ScopedIs.flows (hb : body.Flows proper) : StatShape.Flows proper (ScopedIs body) := by
  rintro S exit P P' hS hP ⟨Q, new, hbody, hopened, hclose, hend, hsame, hdecl⟩
  exact .scope (hb hS hP hbody) hopened hclose hend hsame hdecl

theorem SeqIs.flows {first second : StatShape} (h₁ : first.Flows proper)
    (h₂ : second.Flows proper) : StatShape.Flows proper (SeqIs first second) := by
  rintro S exit P P' hS hP ⟨Q, hfirst, hsecond⟩
  have hflow := h₁ hS hP hfirst
  exact .seq hflow (h₂ hS (hflow.slotted hP) hsecond)

theorem BreakIs.flows : StatShape.Flows proper BreakIs := by
  rintro S exit P P' - - ⟨e, hexit, hjump, rfl⟩
  exact .leave hexit hjump

theorem WhileIs.flows (hc : cond.Codes proper) (hb : body.Flows proper) :
    StatShape.Flows proper (WhileIs cond body) := by
  rintro S exit P P' hS hP ⟨top, Q, new, back, htest, hbody, hopened, hclose, hjump, hpoint, hend⟩
  obtain ⟨r, used, mid, hoperand, ⟨htest, -⟩, hskip, rfl⟩ := htest
  exact .whileLoop (TestIs.tested hc hS hP hoperand htest hskip) (hb hS hP hbody) hopened hclose
    hjump hpoint hend

theorem RepeatIs.flows (hc : cond.Codes proper) (hb : body.Flows proper) :
    StatShape.Flows proper (RepeatIs body cond) := by
  rintro S exit P P' hS hP ⟨Q, new, r, used, mid, hbody, hopened, hoperand, ⟨htest, -⟩, hjump,
    hclose, hend, hsame, hdecl⟩
  have hflow := hb hS hP hbody
  exact .repeatLoop hflow hopened
    (TestIs.tested hc hS (hflow.slotted hP) hoperand htest hjump) hclose hend hsame hdecl

/-- The parts of an arm. -/
structure ArmPart.Flows (proper : Prop) (arm : ArmPart) : Prop where
  cond : arm.cond.Codes proper
  body : arm.body.Flows proper

theorem ArmsAre.flows {arms : List ArmPart} (harms : ∀ arm ∈ arms, arm.Flows proper)
    (hS : S.Limited) (hP : S.Slotted P.opened) (h : ArmsAre S exit P'.pc arms P P') :
    Flow S proper exit P P' := by
  induction arms generalizing P with
  | nil =>
    obtain rfl : P' = P := h
    exact .skip
  | cons arm rest ih =>
    rw [List.forall_mem_cons] at harms
    cases rest with
    | nil =>
      obtain ⟨top, ⟨r, used, mid, hoperand, ⟨htest, -⟩, hskip, rfl⟩, hbody⟩ := h
      exact .lastArm (TestIs.tested harms.1.cond hS hP hoperand htest hskip)
        (ScopedIs.flows harms.1.body hS hP hbody) hbody.opened_eq
    | cons next rest =>
      obtain ⟨top, Q, ⟨r, used, mid, hoperand, ⟨htest, -⟩, hskip, rfl⟩, hbody, hjump, hrest⟩ := h
      have hmid : Q.opened = P.opened := hbody.opened_eq
      exact .arm (TestIs.tested harms.1.cond hS hP hoperand htest hskip)
        (ScopedIs.flows harms.1.body hS hP hbody) hjump
        (ih harms.2 (hmid ▸ hP) hrest) hmid (hrest.opened_eq.trans hmid)

/-! ## Declarations -/

/-- Values are loaded above the locals. -/
theorem AdjustedIs.codes_held {n : Nat} {parts : List Part} (hparts : ∀ p ∈ parts, p.Codes proper)
    (hS : S.Limited) (hP : S.Slotted P.opened)
    (h : AdjustedIs S P.opened n parts P.opened.length P.toMark hi) :
    Code S proper P.opened P.held P.toMark hi (Set.Iio (P.opened.length + n)) ∧
      S.Room (P.opened.length + n) := by
  obtain ⟨hcode, hroom⟩ := h.codes hparts (hP.free hS) hP.room
  exact ⟨.seq hcode (.drop (Iio_subset_loaded _ _)), hroom⟩

theorem DeclareIs.flows (hv : ∀ p ∈ values, p.Codes proper) :
    StatShape.Flows proper (DeclareIs names values) := by
  rintro S exit P P' hS hP ⟨mid, hload, hdecl⟩
  exact .declare (hload.codes_held hv hS hP).1 (Or.inl rfl) hdecl

theorem DeclareFunctionIs.flows {x : String} {f : FunctionBody}
    (hf : proper → f.Every Stat.Iterates) :
    StatShape.Flows proper (DeclareFunctionIs x f.written) := by
  rintro S exit P P' hS hP ⟨P₁, hi, hdecl, hfun, rfl⟩
  have hpc : hi.pc = P.pc + 1 := by
    obtain ⟨inner, -, -, rfl, -⟩ := hfun
    rfl
  have hcode := hfun.codes (K := P.held) hf hS hdecl.2.1
  have hdecl' : Declares S hi.pc [x] (P.at hi) (P₁.at hi) := hpc ▸ hdecl.at hi
  refine .declare ?_ (Or.inr ⟨rfl, hpc⟩) hdecl'
  exact .seq hcode (.drop (Iio_subset_loaded P.opened.length 1))

/-! ## Loops over values -/

/-- An instruction of a loop that may jump. It names registers only. -/
theorem Site.Jumps.does (h : S.Jumps op pc a target) (ha : a < 0x100)
    (hop : op = .forPrep ∨ op = .forLoop ∨ op = .tForLoop)
    (hreads : ∀ s ∈ op.reads a 0 0, s.Full S K)
    (hwrites : ∀ s ∈ op.writes a 0 0 ++ (op.ways a 0).flatMap (·.2), s.Fits S) :
    S.Does proper pc (.asbx op a ((target : Int) - pc - 1)) K := by
  have hi := Instruction.opcode?_asbx op a ((target : Int) - pc - 1)
  have ha' : (Instruction.asbx op a ((target : Int) - pc - 1)).a = a := by
    rw [Instruction.a_asbx, Nat.mod_eq_of_lt ha]
  rcases hop with rfl | rfl | rfl
  all_goals
    refine .of_opcode h.2 hi ?_ (by rw [ha']; exact hreads) (by rw [ha']; exact hwrites)
      ?_ ?_ ?_ ?_ <;> intro r hr <;> cases hr

theorem Site.Jumps.target_eq (h : S.Jumps op pc a target) :
    (Instruction.asbx op a ((target : Int) - pc - 1)).target pc .jump = target := by
  rw [Instruction.target, Instruction.offset_asbx op a h.1]
  omega

/-- What has been written stays written when a loop goes on. -/
theorem mem_after_jump {extra : List Span} {r : Nat}
    (hop : op = .jmp ∨ op = .forPrep ∨ op = .forLoop ∨ op = .tForLoop)
    (hr : r ∈ K ∨ ∃ s ∈ extra, r ∈ s.toSet) : r ∈ (Instruction.asbx op a n).after extra K := by
  have hi := Instruction.opcode?_asbx op a n
  have hbase : (Instruction.asbx op a n).base? = none := by
    rw [Instruction.base?_eq hi]
    rcases hop with rfl | rfl | rfl | rfl <;> rfl
  rcases hr with hr | ⟨s, hs, hr⟩
  · exact Or.inl ⟨hr, by simp [hbase]⟩
  · exact Or.inr ⟨s, List.mem_append_right _ hs, hr⟩

/-- The ways on from an instruction of a loop. -/
theorem ways_jump (ha : a < 0x100)
    (hop : op = .jmp ∨ op = .forPrep ∨ op = .forLoop ∨ op = .tForLoop) :
    (Instruction.asbx op a n).ways = op.ways a 0 := by
  rw [Instruction.ways_eq (Instruction.opcode?_asbx op a n), Instruction.a_asbx,
    Nat.mod_eq_of_lt ha]
  rcases hop with rfl | rfl | rfl | rfl <;> rfl

/-- The registers of a loop's state. -/
theorem state_full (hroom : S.Room (a + 3)) : (Span.mk a (some 3)).Full S (Set.Iio (a + 3)) := by
  have hpeak := hroom.2
  exact Span.full_some.mpr fun r _ hlt => ⟨hlt, by omega⟩

theorem NumericForIs.flows {var : String} {init limit step : Part} (hi : init.Codes proper)
    (hl : limit.Codes proper) (hs : step.Codes proper) (hb : body.Flows proper) :
    StatShape.Flows proper (NumericForIs var init limit step body) := by
  rintro S exit P P' hS hP ⟨P₁, P₂, Q, new, loop, ⟨mid, hload, hstate⟩, hvar, hprep, hbody, hopened,
    hclose, hloop, hpoint, hend, hend'⟩
  have hparts : ∀ p ∈ [init, limit, step], p.Codes proper := by simp [hi, hl, hs]
  obtain ⟨hinit, hroom⟩ := hload.codes_held hparts hS hP
  have hslot₂ := hvar.slotted (hstate.slotted hP)
  have hmark : P₁.toMark = mid := hstate.pc_eq
  have hlen : P₁.opened.length = P.opened.length + 3 := hstate.length_eq
  have hroom' := hvar.2.1
  have hmax := hS.peak_le
  have hpeak := hroom'.2
  have ha : P.opened.length < 0x100 := by omega
  rw [hvar.pc_eq, hmark] at hbody
  rw [hmark] at hprep hvar hloop
  refine .forLoop hinit hstate rfl (by decide) hvar
    (hprep.does ha (by simp) ?_ ?_) (ways_jump ha (by simp)) ?_ ?_ hprep.target_eq
    (hb hS hslot₂ hbody) hopened hclose (.drop subset_rfl)
    (hloop.does ha (by simp) ?_ ?_) (ways_jump ha (by simp)) hloop.target_eq ?_ ?_
    hpoint (by rw [hpoint]; exact hend) hend'
  · simpa using state_full hroom
  · simp
    omega
  · simp [Instruction.closes?, Opcode.closes?]
  · simp [Instruction.base?]
  · simpa using state_full hroom
  · simp
    omega
  · exact fun r hr => mem_after_jump (by simp) (Or.inl (Nat.lt_add_right _ hr))
  · intro _ r hr
    rw [Set.mem_Iio] at hr
    refine mem_after_jump (by simp) ?_
    rcases Nat.lt_or_ge r (P.opened.length + 3) with hlt | hge
    · exact Or.inl hlt
    · refine Or.inr ⟨_, List.mem_singleton_self _, ?_⟩
      simp only [List.length_singleton] at hr
      rw [Span.toSet_one, Set.mem_singleton_iff]
      omega

theorem GenericForIs.flows (hnames : proper → names ≠ []) (hv : ∀ p ∈ values, p.Codes proper)
    (hb : body.Flows proper) : StatShape.Flows proper (GenericForIs names values body) := by
  rintro S exit P P' hS hP ⟨P₁, P₂, Q, new, call, ⟨mid, hload, hstate⟩, hvars, hprep, hbody,
    hopened, hclose, hcall, hloop, hpoint, hend, hend'⟩
  obtain ⟨hinit, hroom⟩ := hload.codes_held hv hS hP
  have hslot₂ := hvars.slotted (hstate.slotted hP)
  have hmark : P₁.toMark = mid := hstate.pc_eq
  have hlen : P₂.opened.length = P.opened.length + 3 + names.length := by
    rw [hvars.length_eq, hstate.length_eq]
    rfl
  have hmax := hS.peak_le
  have hpeak := hroom.2
  have hpeak₂ := hslot₂.length_le
  simp only [genericState, List.length_cons, List.length_nil] at hpeak
  have ha : P.opened.length + 2 < 0x100 := by omega
  rw [hvars.pc_eq, hmark] at hbody
  rw [hmark] at hprep hvars hloop
  -- the iterator is called with its state and gives a value to each name
  have hadm : S.Admits .tForCall P.opened.length 0 names.length
    (Set.Iio (P.opened.length + 3)) := by
    refine ⟨by omega, by omega, by omega, by simp, ?_, ?_, by simp, by simp⟩
    · simpa using state_full hroom
    · simp
      omega
  have hround : Code S proper P.opened (Set.Iio (P.opened.length + 3)) call call.next
      (Set.Iio (P.opened.length + 3 + names.length)) := by
    refine hadm.code hcall rfl fun r hr => ?_
    rw [Set.mem_Iio] at hr
    rcases Nat.lt_or_ge r (P.opened.length + 3) with hlt | hge
    · exact Or.inl ⟨hlt, by simpa using hlt⟩
    · exact Or.inr ⟨_, List.mem_singleton_self _, hge, hr⟩
  have hdoes : S.Does proper call.next.pc
      (.asbx .tForLoop (P.opened.length + 2) (((mid.pc + 1 : Nat) : Int) - call.next.pc - 1))
      (Set.Iio (P.opened.length + 3 + names.length)) := by
    by_cases hproper : proper
    · have hpos := List.length_pos_iff.mpr (hnames hproper)
      refine hloop.does ha (by simp) ?_ ?_
      · simp
        omega
      · simp
        omega
    · have hop := Instruction.opcode?_asbx .tForLoop (P.opened.length + 2)
        (((mid.pc + 1 : Nat) : Int) - call.next.pc - 1)
      exact ⟨hloop.2, Instruction.canonical_of_opcode? hop (by simp),
        fun h => absurd h hproper, fun h => absurd h hproper⟩
  refine .forLoop hinit hstate rfl (by decide) hvars ?_ (ways_jump (by decide) (by simp)) ?_ ?_
    hprep.target_eq (hb hS hslot₂ hbody) hopened hclose hround hdoes (ways_jump ha (by simp))
    hloop.target_eq ?_ ?_ hpoint (by rw [hpoint]; exact hend) hend'
  · refine .of_opcode hprep.2 (Instruction.opcode?_asbx ..) ?_ ?_ ?_ ?_ ?_ ?_ ?_ <;>
      simp [Opcode.closes?, Opcode.nested?]
  · simp [Instruction.closes?, Opcode.closes?]
  · simp [Instruction.base?]
  · intro r hr
    refine mem_after_jump (by simp) (Or.inl ?_)
    have hr' : r < P.opened.length := hr
    exact Set.mem_Iio.mpr (by omega)
  · exact fun _ r hr => mem_after_jump (by simp) (Or.inl hr)

/-! ## Assignments -/

/-- An address keeps what it needs while the values are loaded. -/
def Address.At (address : Address) (S : Site) (K : Set Nat) (used : Nat) : Prop :=
  match address with
  | .register r => (Operand.register r).At S K used
  | .upvalue u => (Operand.upvalue u).At S K used
  | .field table key => (Operand.register table).At S K used ∧ (Operand.register key).At S K used
  | .global env _ key => env.At S K used ∧ (∀ i, env ≠ .constant i) ∧
      ∀ r ∈ key, (Operand.register r).At S K used

theorem Address.At.keep (h : address.At S K used) (hkeep : ∀ r < used, r ∈ K → r ∈ K')
    (hle : used ≤ used') : address.At S K' used' := by
  cases address with
  | register r => exact Operand.At.keep (o := .register r) h hkeep hle
  | upvalue u => exact h
  | field table key => exact ⟨h.1.keep hkeep hle, h.2.keep hkeep hle⟩
  | global env x key => exact ⟨h.1.keep hkeep hle, h.2.1, fun r hr => (h.2.2 r hr).keep hkeep hle⟩

/-- The parts of a target. -/
def TargetPart.Codes (proper : Prop) : TargetPart → Prop
  | .name _ => True
  | .index table key => table.Codes proper ∧ key.Codes proper

/-- Where a store will go is worked out. -/
theorem AddressIs.codes {t : TargetPart} (ht : t.Codes proper) (hfree : S.Free opened K used)
    (hroom : S.Room used) (h : AddressIs S opened used lo t address used' hi) :
    used ≤ used' ∧ S.Room used' ∧ ∃ K', Code S proper opened K lo hi K' ∧
      (∀ r < used, r ∈ K → r ∈ K') ∧ address.At S K' used' := by
  have hglobals : ∀ {env : Operand}, GlobalsAre S opened env → ∀ i, env ≠ .constant i := by
    rintro env henv i rfl
    cases henv
  cases h with
  | register hlocal =>
    exact ⟨le_rfl, hroom, K, .drop subset_rfl, fun _ _ => id, hfree.local_at hlocal⟩
  | upvalue _ hup =>
    exact ⟨le_rfl, hroom, K, .drop subset_rfl, fun _ _ => id, hup.lt_size, hup.1⟩
  | global _ _ henv =>
    exact ⟨le_rfl, hroom, K, .drop subset_rfl, fun _ _ => id, henv.at hfree, hglobals henv,
      by simp⟩
  | globalLoaded _ _ henv hroom' hkey =>
    have hkeep : ∀ r < used, r ∈ K → r ∈ loaded K used 1 := fun r hr hK => Or.inl ⟨hr, hK⟩
    refine ⟨Nat.le_succ _, hroom', loaded K used 1, hkey.codes hfree.limited hroom', hkeep,
      (henv.at hfree).keep hkeep (Nat.le_succ _), hglobals henv, fun r hr => ?_⟩
    obtain rfl := Option.mem_some.mp hr
    exact ⟨Or.inr ⟨le_rfl, Or.inr (by omega)⟩, Nat.lt_succ_self _, hroom'.2⟩
  | field hroom' htable hkey =>
    have hpeak := hroom'.2
    have hone : S.Room (used + 1) := hroom'.mono (Nat.le_succ _)
    have hcode₁ := ht.1 (n := 1) hfree hone hone (by decide) (Or.inr rfl) htable
    have hcode₂ := ht.2 (n := 1) (hfree.loaded (n := 1) (Nat.le_succ _)) hroom' hroom' (by decide)
      (Or.inr rfl) hkey
    refine ⟨by omega, hroom', _, .seq hcode₁ hcode₂, fun r hr hK => ?_, ⟨?_, by omega, by omega⟩,
      ?_, by omega, by omega⟩
    · exact Or.inl ⟨by omega, Or.inl ⟨hr, hK⟩⟩
    · exact Or.inl ⟨by omega, Or.inr ⟨le_rfl, Or.inr (by omega)⟩⟩
    · exact Or.inr ⟨le_rfl, Or.inr (by omega)⟩

theorem AddressesAre.codes (ht : ∀ t ∈ targets, t.Codes proper) (hfree : S.Free opened K used)
    (hroom : S.Room used) (h : AddressesAre S opened targets addresses used lo used' hi) :
    used ≤ used' ∧ S.Room used' ∧ ∃ K', Code S proper opened K lo hi K' ∧
      (∀ r < used, r ∈ K → r ∈ K') ∧ ∀ address ∈ addresses, address.At S K' used' := by
  induction h generalizing K with
  | nil => exact ⟨le_rfl, hroom, K, .drop subset_rfl, fun _ _ => id, by simp⟩
  | cons hfirst _ ih =>
    rw [List.forall_mem_cons] at ht
    obtain ⟨hle₁, hroom₁, K₁, hcode₁, hkeep₁, hat₁⟩ := hfirst.codes ht.1 hfree hroom
    obtain ⟨hle₂, hroom₂, K₂, hcode₂, hkeep₂, hat₂⟩ := ih ht.2 (hfree.advance hle₁ hkeep₁) hroom₁
    refine ⟨Nat.le_trans hle₁ hle₂, hroom₂, K₂, .seq hcode₁ hcode₂, fun r hr hK => ?_, ?_⟩
    · exact hkeep₂ r (by omega) (hkeep₁ r hr hK)
    · exact List.forall_mem_cons.mpr ⟨hat₁.keep hkeep₂ hle₂, hat₂⟩

theorem globalWrite_codes {env : Operand} {key : Nat} (hS : S.Limited) (henv : env.At S K used)
    (hconst : ∀ i, env ≠ .constant i) (hk : S.Readable K key) (hv : S.Readable K value)
    (hcode : S.Writes (globalWrite env key value) lo hi) : Code S proper opened K lo hi K := by
  cases env with
  | constant i => exact absurd rfl (hconst i)
  | register r =>
    have hadm : S.Admits .setTable r key value K := .setTable hS henv.1 henv.2.2 hk hv
    exact hadm.idle hcode rfl rfl
  | upvalue u =>
    have hlt := henv.2
    unfold maxUpvalues at hlt
    have hadm : S.Admits .setTabUp u key value K := by
      refine ⟨by omega, hk.lt, hv.lt, by simp, fun s hs => ?_,
        by simp, fun k hmem => ?_, ?_⟩
      · exact (List.mem_append.mp hs).elim (hk.registers s) (hv.registers s)
      · exact (List.mem_append.mp hmem).elim (hk.constants k) (hv.constants k)
      · simpa using henv.1
    exact hadm.idle hcode rfl rfl

theorem StoreIs.codes (hS : S.Limited) (hat : address.At S K used)
    (hv : (Operand.register value).At S K used) (h : StoreIs S value lo hi address) :
    Code S proper opened K lo hi K := by
  have hmax := hS.peak_le
  have hvalue : S.Readable K value := .register hS hv.1 hv.2.2
  have hlt := hv.2.2
  cases address with
  | register r =>
    have hr := hat.2.2
    have hadm : S.Admits .move r value 0 K := by
      refine ⟨by omega, by omega, by omega, by simp, ?_, ?_, ?_, ?_⟩ <;>
        simp [hv.1, hv.2.2, hr]
    exact hadm.idle h rfl rfl
  | upvalue u =>
    have hu := hat.2
    unfold maxUpvalues at hu
    have hadm : S.Admits .setUpval value u 0 K := by
      refine ⟨by omega, by omega, by omega, by simp, ?_, ?_, ?_, ?_⟩ <;>
        simp [hv.1, hv.2.2, hat.1]
    exact hadm.idle h rfl rfl
  | field table key =>
    have hadm : S.Admits .setTable table key value K :=
      .setTable hS hat.1.1 hat.1.2.2 (.register hS hat.2.1 hat.2.2.2) hvalue
    exact hadm.idle h rfl rfl
  | global env x key =>
    obtain ⟨henv, hconst, hkey⟩ := hat
    cases key with
    | some r =>
      obtain ⟨hr, -, hr'⟩ := hkey r rfl
      exact globalWrite_codes hS henv hconst (.register hS hr hr') hvalue h
    | none =>
      obtain ⟨i, hpool, hreach, hcode⟩ := h
      exact globalWrite_codes hS henv hconst
        (.constant hpool.lt_size (Nat.le_trans hreach hS.constants)) hvalue hcode

theorem StoresAre.codes (hS : S.Limited) (hat : ∀ address ∈ addresses, address.At S K used)
    (hv : ∀ k < addresses.length, (Operand.register (value + k)).At S K used)
    (h : StoresAre S addresses value lo hi) : Code S proper opened K lo hi K := by
  induction addresses generalizing value lo with
  | nil =>
    obtain rfl : hi = lo := h
    exact .drop subset_rfl
  | cons address rest ih =>
    rw [List.forall_mem_cons] at hat
    refine .seq (h.1.codes hS hat.1 (hv 0 (Nat.succ_pos _))) (ih hat.2 (fun k hk => ?_) h.2)
    have hnext := hv (k + 1) (Nat.succ_lt_succ hk)
    rwa [← Nat.add_assoc, Nat.add_right_comm] at hnext

theorem AddressesAre.length_eq (h : AddressesAre S opened targets addresses used lo used' hi) :
    addresses.length = targets.length := by
  induction h with
  | nil => rfl
  | cons _ _ ih => rw [List.length_cons, List.length_cons, ih]

theorem AssignIs.flows (ht : ∀ t ∈ targets, t.Codes proper) (hv : ∀ p ∈ values, p.Codes proper) :
    StatShape.Flows proper (AssignIs targets values) := by
  rintro S exit P P' hS hP ⟨addresses, used, mid₁, mid₂, hi, haddr, hload, hstore, rfl⟩
  have hfree := hP.free hS
  obtain ⟨hle, hroom, K₁, hcode₁, hkeep₁, hat⟩ := haddr.codes ht hfree hP.room
  obtain ⟨hcode₂, hroom₂⟩ := hload.codes hv (hfree.advance hle hkeep₁) hroom
  have hkeep₂ : ∀ r < used, r ∈ K₁ → r ∈ loaded K₁ used targets.length :=
    fun r hr hK => Or.inl ⟨hr, hK⟩
  have hat₂ : ∀ address ∈ addresses,
      address.At S (loaded K₁ used targets.length) (used + targets.length) :=
    fun address hmem => (hat address hmem).keep hkeep₂ (Nat.le_add_right _ _)
  have hpeak := hroom₂.2
  refine .code (.seq hcode₁ (.seq hcode₂ (hstore.codes hS hat₂ fun k hk => ?_))) fun r hr => ?_
  · rw [haddr.length_eq] at hk
    exact ⟨Or.inr ⟨by omega, Or.inr (by omega)⟩, by omega, by omega⟩
  · exact hkeep₂ r (Nat.lt_of_lt_of_le hr hle) (hkeep₁ r hr hr)

/-! ## Calls and returns -/

theorem CallStatIs.flows (hc : callee.Codes proper) (ha : ∀ p ∈ args, p.Codes proper) :
    StatShape.Flows proper (CallStatIs callee method args) := by
  rintro S exit P P' hS hP ⟨hi, hroom, hcall, rfl⟩
  refine .code (hcall.codes hc ha (hP.free hS) hroom (hroom.mono (by omega)) (by decide)) ?_
  exact fun r hr => Or.inl ⟨hr, hr⟩

/-- Values in a row are returned. -/
theorem Site.Admits.ret (hS : S.Limited) (hn : -1 ≤ n) (hroom : S.Room (a + n.toNat))
    (hopen : n = -1 → S.Room (a + 1)) (hfull : ∀ r, a ≤ r → n < 0 ∨ (r : Int) < a + n → r ∈ K) :
    S.Admits .ret a (countCode n) 0 K := by
  have hmax := hS.peak_le
  have hpeak := hroom.2
  rw [countCode_eq hn (by omega)]
  refine ⟨by omega, by omega, by omega, by simp, ?_, by simp, by simp, by simp⟩
  simp only [Opcode.reads, Span.counted_succ hn, List.mem_singleton, forall_eq]
  split
  · next hneg =>
    exact Span.full_none.mpr ⟨fun r hge => hfull r hge (Or.inl hneg), (hopen (by omega)).2⟩
  · exact Span.full_some.mpr fun r hge hlt => ⟨hfull r hge (Or.inr (by omega)), by omega⟩

theorem ReturnCallIs.flows (hc : callee.Codes proper) (ha : ∀ p ∈ args, p.Codes proper) :
    StatShape.Flows proper (ReturnCallIs callee method args) := by
  rintro S exit P P' hS hP ⟨n, mid, hroom, hlaid, hcall, ⟨hret, -⟩, rfl⟩
  obtain ⟨hcode, hn, hroom₁, hopen⟩ := hlaid.codes hc ha (hP.free hS) hroom
  have hmax := hS.peak_le
  have hpeak := hroom.2
  have hpeak₁ := hroom₁.2
  rw [countCode_eq hn (by omega)] at hcall
  have hadm : S.Admits .tailCall P.opened.length (n + 1).toNat 0
      (loaded (Set.Iio P.opened.length) P.opened.length (if n < 0 then allValues else n + 1)) := by
    refine ⟨by omega, by omega, by omega, by simp, callRow_full hn hpeak hroom₁ hopen, ?_,
      by simp, by simp⟩
    simp [Span.counted]
    omega
  have hopened : Code S proper P.opened P.held P.toMark mid.next (Set.Ici P.opened.length) :=
    .seq hcode (hadm.code hcall rfl fun r hr =>
      Or.inr ⟨_, List.mem_singleton_self _, by simpa [Span.counted] using hr⟩)
  have hret' : S.Admits .ret P.opened.length (countCode allValues) 0 (Set.Ici P.opened.length) :=
    .ret hS (by decide) (hroom.mono (Nat.le_succ _)) (fun _ => hroom) fun r hge _ => hge
  exact .ret hopened (hret'.does hret) (Instruction.opcode?_abc ..)

theorem ReturnIs.flows (hv : ∀ p ∈ values, p.Codes proper) :
    StatShape.Flows proper (ReturnIs values) := by
  intro S exit P P' hS hP h
  cases h with
  | nothing _ hcode hpoint =>
    have hadm : S.Admits .ret 0 (countCode 0) 0 P.held :=
      .ret hS (by decide) ⟨Nat.zero_le _, Nat.zero_le _⟩ nofun fun r _ hlt => by omega
    exact hpoint ▸ .ret (.drop subset_rfl) (hadm.does hcode.1) (Instruction.opcode?_abc ..)
  | @register x p v _ _ hlocal hcode hpoint =>
    have hlt := hP.local_lt hlocal
    have hadm : S.Admits .ret v.slot (countCode 1) 0 P.held :=
      .ret hS (by decide) (hP.room.mono hlt) nofun fun r hge hr => Set.mem_Iio.mpr (by omega)
    exact hpoint ▸ .ret (.drop subset_rfl) (hadm.does hcode.1) (Instruction.opcode?_abc ..)
  | @loaded n mid hload hcode hpoint =>
    obtain ⟨hcode₁, hn, hroom, hopen⟩ := hload.codes hv (hP.free hS) hP.room
    have hadm : S.Admits .ret P.opened.length (countCode n) 0
        (LuaLowering.loaded (Set.Iio P.opened.length) P.opened.length n) :=
      .ret hS hn hroom hopen fun r hge hr => Or.inr ⟨hge, hr⟩
    exact hpoint ▸ .ret hcode₁ (hadm.does hcode.1) (Instruction.opcode?_abc ..)

/-! ## The recursion -/

mutual

theorem Block.flows : ∀ b : Block, (proper → b.Every Stat.Iterates) → b.shape.Flows proper
  | ⟨stats, none, _⟩, h => Stat.flowsAll stats fun hp => (h hp).1
  | ⟨stats, some values, _⟩, h => by
      have hstats := Stat.flowsAll stats fun hp => (h hp).1
      rw [Block.shape.eq_def]
      dsimp only
      split
      · next heq => cases heq
      · next c heq =>
          cases heq
          exact SeqIs.flows hstats (ReturnCallIs.flows (c.callee_codes fun hp => (h hp).2.1)
            (c.args_codes fun hp => (h hp).2.1))
      · next heq =>
          cases heq
          exact SeqIs.flows hstats (ReturnIs.flows (Expr.parts_codes values fun hp => (h hp).2))

theorem Stat.flowsAll : ∀ ss : List Stat, (proper → Stat.EveryIn Stat.Iterates ss) →
    (Stat.shapeAll ss).Flows proper
  | [], _ => fun _ _ _ _ _ _ h => h ▸ .skip
  | s :: rest, h => SeqIs.flows (Stat.flows s fun hp => (h hp).1)
      (Stat.flowsAll rest fun hp => (h hp).2)

theorem Stat.flows : ∀ s : Stat, (proper → s.Every Stat.Iterates) → s.shape.Flows proper
  | .empty, _ => fun _ _ _ _ _ _ h => h ▸ .skip
  | .break _, _ => BreakIs.flows
  | .label _ _, _ => fun _ _ _ _ _ _ h => h.elim
  | .goto _ _, _ => fun _ _ _ _ _ _ h => h.elim
  | .block body, h => ScopedIs.flows (Block.flows body fun hp => (h hp).2)
  | .call c, h => CallStatIs.flows (c.callee_codes fun hp => (h hp).2)
      (c.args_codes fun hp => (h hp).2)
  | .whileLoop cond body _, h => WhileIs.flows (Expr.codes cond fun hp => (h hp).2.1)
      (Block.flows body fun hp => (h hp).2.2)
  | .repeatLoop body cond _, h => RepeatIs.flows (Expr.codes cond fun hp => (h hp).2.2)
      (Block.flows body fun hp => (h hp).2.1)
  | .ifChain arms, h => fun _ _ _ _ hS hP hshape =>
    ArmsAre.flows (Branch.flows arms fun hp => (h hp).2) hS hP hshape
  | .numericFor _ init limit (some step) body _ _, h =>
    NumericForIs.flows (Expr.codes init fun hp => (h hp).2.1)
      (Expr.codes limit fun hp => (h hp).2.2.1) (Expr.codes step fun hp => (h hp).2.2.2.1)
      (Block.flows body fun hp => (h hp).2.2.2.2)
  | .numericFor _ init limit none body _ _, h =>
    NumericForIs.flows (Expr.codes init fun hp => (h hp).2.1)
      (Expr.codes limit fun hp => (h hp).2.2.1) (Part.constant_codes _ _ rfl)
      (Block.flows body fun hp => (h hp).2.2.2.2)
  | .genericFor _ values body _, h =>
    GenericForIs.flows (fun hp => (h hp).1) (Expr.parts_codes values fun hp => (h hp).2.1)
      (Block.flows body fun hp => (h hp).2.2)
  | .assign targets values _, h => AssignIs.flows (Target.codes targets fun hp => (h hp).2.1)
      (Expr.parts_codes values fun hp => (h hp).2.2)
  | .declare _ values _, h => DeclareIs.flows (Expr.parts_codes values fun hp => (h hp).2)
  | .declareFunction _ _, h => DeclareFunctionIs.flows fun hp => (h hp).2

theorem Branch.flows : ∀ arms : List Branch, (proper → Branch.Every Stat.Iterates arms) →
    ∀ arm ∈ Branch.parts arms, arm.Flows proper
  | [], _ => by simp [Branch.parts]
  | ⟨cond, body, _⟩ :: rest, h => by
      rw [Branch.parts, List.forall_mem_cons]
      exact ⟨⟨Expr.codes cond fun hp => (h hp).1, Block.flows body fun hp => (h hp).2.1⟩,
        Branch.flows rest fun hp => (h hp).2.2⟩

theorem Target.codes : ∀ targets : List Target, (proper → Target.Every Stat.Iterates targets) →
    ∀ t ∈ Target.parts targets, t.Codes proper
  | [], _ => by simp [Target.parts]
  | .name x :: rest, h => by
      rw [Target.parts, List.forall_mem_cons]
      exact ⟨trivial, Target.codes rest h⟩
  | .index table key :: rest, h => by
      rw [Target.parts, List.forall_mem_cons]
      exact ⟨⟨Expr.codes table fun hp => (h hp).1, Expr.codes key fun hp => (h hp).2.1⟩,
        Target.codes rest fun hp => (h hp).2.2⟩

end

end LuaLowering
