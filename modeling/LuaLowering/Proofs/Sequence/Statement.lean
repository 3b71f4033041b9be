import LuaLowering.Proofs.Sequence.Expression

/-!
# Statements in sequence

Between two statements nothing is open. So every jump of a statement lands on a
joint: the start or the end of the code of some part of it.
-/

namespace LuaLowering

variable {S : Site} {fs : List FunctionBody} {exit : Option Exit} {P P' Q : Point}
  {lo mid hi : Mark} {cond callee : Part} {opened : List Nat} {body : StatShape}
  {names : List String} {values args : List Part} {used used' value : Nat}
  {targets : List TargetPart} {addresses : List Address} {method : Option String}

/-- The code of a statement takes all that it leaves open, if a `break` leads to a
joint. -/
def StatShape.Links (fs : List FunctionBody) (body : StatShape) : Prop :=
  ∀ ⦃S : Site⦄ ⦃exit : Option Exit⦄ ⦃P P' : Point⦄, S.Framed →
    S.Room P.opened.length → (∀ e ∈ exit, S.Joint e.target) → body S exit P P' →
    Linked S fs P.toMark P'.toMark none ∧ S.Room P'.opened.length

theorem Site.Joint.at_exit {e : Exit} (h : S.Joint e.target) :
    ∀ e' ∈ (some e : Option Exit), S.Joint e'.target := by
  intro e' he
  rwa [← Option.mem_some.mp he]

/-! ## Conditions, scopes and loops -/

theorem TestIs.links {target : Nat} (hc : cond.Links fs)
    (hmax : S.Framed) (htarget : S.Joint target)
    (h : TestIs cond S opened target lo hi) :
    Linked S fs lo hi none ∧ lo.pc < hi.pc ∧ S.Joint hi.pc := by
  obtain ⟨r, used, mid, hoperand, ⟨htest, -⟩, hjump, rfl⟩ := h
  have hcond := hoperand.links hc hmax
  have hjoint : S.Joint mid.next.next.pc := .after_jump hjump rfl
  have hskip : Linked S fs mid mid.next none :=
    .skip htest (Instruction.opcode?_abc ..) rfl rfl (by simp) hjoint
  refine ⟨hcond.trans (hskip.trans (.jump hjump rfl htarget)), ?_, hjoint⟩
  exact Nat.lt_of_le_of_lt hcond.le (Nat.lt_add_of_pos_right Nat.two_pos)

theorem ClosesTo.links {level : Nat} (h : ClosesTo S level lo hi) : Linked S fs lo hi none := by
  rcases h.jumps with rfl | ⟨hjump, rfl⟩
  · exact .nil
  · exact .jump hjump rfl (.after_jump hjump rfl)

theorem ScopedIs.links (hb : body.Links fs) : StatShape.Links fs (ScopedIs body) := by
  intro S exit P P' hmax hroom hexit h
  obtain ⟨Q, new, hbody, -, hclose, -, hsame, -⟩ := h
  have hexit' : ∀ e ∈ exit.map (·.inside (S.level new)), S.Joint e.target := by
    intro e he
    obtain ⟨e', he', rfl⟩ := Option.map_eq_some_iff.mp he
    exact hexit e' he'
  rw [hsame]
  exact ⟨(hb hmax hroom hexit' hbody).1.trans hclose.links, hroom⟩

theorem SeqIs.links {first second : StatShape} (h₁ : first.Links fs) (h₂ : second.Links fs) :
    StatShape.Links fs (SeqIs first second) := by
  intro S exit P P' hmax hroom hexit h
  obtain ⟨Q, hfirst, hsecond⟩ := h
  obtain ⟨hlinked, hroom'⟩ := h₁ hmax hroom hexit hfirst
  obtain ⟨hlinked', hroom''⟩ := h₂ hmax hroom' hexit hsecond
  exact ⟨hlinked.trans hlinked', hroom''⟩

theorem BreakIs.links : StatShape.Links fs BreakIs := by
  intro S exit P P' _ hroom hexit h
  obtain ⟨e, rfl, hjump, rfl⟩ := h
  exact ⟨.jump hjump rfl (hexit e rfl), hroom⟩

theorem WhileIs.links (hc : cond.Links fs) (hb : body.Links fs) :
    StatShape.Links fs (WhileIs cond body) := by
  intro S exit P P' hmax hroom _ h
  obtain ⟨top, Q, new, back, htest, hbody, -, hclose, hjump, rfl, -⟩ := h
  have hpast : S.Joint back.next.pc := .after_jump hjump rfl
  obtain ⟨hcond, hlt, -⟩ := htest.links hc hmax hpast
  have hround := (hb (P := P.at top) hmax hroom (Site.Joint.at_exit hpast) hbody).1.trans
    hclose.links
  have hback : Linked S fs back back.next none := .jump hjump rfl (hcond.joint_start hlt)
  exact ⟨hcond.trans (hround.trans hback), hroom⟩

theorem RepeatIs.links (hc : cond.Links fs) (hb : body.Links fs) :
    StatShape.Links fs (RepeatIs body cond) := by
  intro S exit P P' hmax hroom _ h
  obtain ⟨Q, new, r, used, mid, hbody, -, hoperand, htest, hjump, hclose, -, hsame, -⟩ := h
  have hbehind : S.Joint mid.next.next.pc := .after_jump hjump rfl
  have hclosed : Linked S fs mid.next.next P'.toMark none := hclose.links
  -- a `break` lands behind the loop's own jump, or behind the one that closes
  have hpast : S.Joint P'.pc := by
    rcases hclosed.state with ⟨heq, -⟩ | ⟨before, i, hpc, -, hi, hopens⟩
    · rw [heq]
      exact hbehind
    · exact Or.inr ⟨before, i, hpc, hi, hopens⟩
  have hround := (hb hmax hroom (Site.Joint.at_exit hpast) hbody).1.trans (hoperand.links hc hmax)
  have hskip : Linked S fs mid mid.next none :=
    .skip htest.1 (Instruction.opcode?_abc ..) rfl rfl (by simp) hbehind
  have htop : S.Joint P.pc :=
    (hround.trans hskip).joint_start (Nat.lt_succ_of_le hround.le)
  have hagain : Linked S fs mid.next mid.next.next none := .jump hjump rfl htop
  rw [hsame]
  exact ⟨hround.trans (hskip.trans (hagain.trans hclosed)), hroom⟩

/-- The parts of an arm leave nothing open. -/
structure ArmPart.Links (fs : List FunctionBody) (arm : ArmPart) : Prop where
  cond : arm.cond.Links fs
  body : arm.body.Links fs

theorem ArmsAre.links {arms : List ArmPart} (harms : ∀ arm ∈ arms, arm.Links fs)
    (hmax : S.Framed) (hroom : S.Room P.opened.length)
    (hexit : ∀ e ∈ exit, S.Joint e.target) (h : ArmsAre S exit P'.pc arms P P') :
    Linked S fs P.toMark P'.toMark none ∧ (arms ≠ [] → S.Joint P'.pc) := by
  induction arms generalizing P with
  | nil =>
    obtain rfl : P' = P := h
    exact ⟨.nil, fun hne => absurd rfl hne⟩
  | cons arm rest ih =>
    rw [List.forall_mem_cons] at harms
    cases rest with
    | nil =>
      obtain ⟨top, htest, hscope⟩ := h
      have hbody := (ScopedIs.links harms.1.body (P := P.at top) hmax hroom hexit hscope).1
      -- where the arm ends, also if its body is empty
      have hpast : S.Joint P'.pc := by
        rcases hbody.state with ⟨heq, -⟩ | ⟨before, i, hpc, -, hi, hopens⟩
        · obtain ⟨r, used, mid, -, -, hjump, rfl⟩ := htest
          rw [heq]
          exact .after_jump hjump rfl
        · exact Or.inr ⟨before, i, hpc, hi, hopens⟩
      exact ⟨(htest.links harms.1.cond hmax hpast).1.trans hbody, fun _ => hpast⟩
    | cons next rest =>
      obtain ⟨top, Q, htest, hscope, hjump, hrest⟩ := h
      have hbehind : S.Joint (Q.pc + 1) := .after_jump hjump rfl
      have hbody := ScopedIs.links harms.1.body (P := P.at top) hmax hroom hexit hscope
      obtain ⟨hmore, hpast⟩ := ih (P := Q.at Q.next) harms.2 hbody.2 hrest
      have hpast' := hpast (List.cons_ne_nil _ _)
      have hleave : Linked S fs Q.toMark Q.next none := .jump hjump rfl hpast'
      have hcond := (htest.links harms.1.cond hmax hbehind).1
      exact ⟨hcond.trans (hbody.1.trans (hleave.trans hmore)), fun _ => hpast'⟩

/-! ## Declarations and loops over values -/

theorem Declares.room {startPc : Nat} (h : Declares S startPc names P P')
    (hroom : S.Room P.opened.length) : S.Room P'.opened.length := by
  rcases h.opens.room with heq | hroom'
  · rw [heq]
    exact hroom
  · exact hroom'

theorem DeclareIs.links (hv : ∀ p ∈ values, p.Links fs) :
    StatShape.Links fs (DeclareIs names values) := by
  intro S exit P P' hmax hroom _ h
  obtain ⟨mid, hload, hdecl⟩ := h
  rw [hdecl.pc_eq]
  exact ⟨hload.links hv hmax hroom, hdecl.room hroom⟩

theorem DeclareFunctionIs.links {x : String} {f : FunctionBody} (hf : f.functions ⊆ fs) :
    StatShape.Links fs (DeclareFunctionIs x f.written) := by
  intro S exit P P' _ hroom _ h
  obtain ⟨P₁, hi, hdecl, hfun, rfl⟩ := h
  exact ⟨hfun.links hf, hdecl.room hroom⟩

theorem NumericForIs.links {var : String} {init limit step : Part} (hi : init.Links fs)
    (hl : limit.Links fs) (hs : step.Links fs) (hb : body.Links fs) :
    StatShape.Links fs (NumericForIs var init limit step body) := by
  intro S exit P P' hmax hroom _ h
  obtain ⟨P₁, P₂, Q, new, loop, hstate, hvar, hprep, hbody, -, hclose, hloop, rfl, -⟩ := h
  have hparts : ∀ p ∈ [init, limit, step], p.Links fs := by simp [hi, hl, hs]
  obtain ⟨hload, hroom₁⟩ := DeclareIs.links hparts hmax hroom (by simp) hstate
  have hpast : S.Joint loop.next.pc := .after_jump hloop rfl
  have hend : S.Joint loop.pc := Or.inl ⟨_, hloop.2,
    Instruction.takesOpen_of_jump (Instruction.opcode?_asbx ..) rfl⟩
  have hround := (hb (P := P₂.at P₂.next) hmax (hvar.room hroom₁) (Site.Joint.at_exit hpast)
    hbody).1
  have henter : Linked S fs P₁.toMark P₁.next none := .jump hprep rfl hend
  have hagain : Linked S fs loop loop.next none := .jump hloop rfl (.after_jump hprep rfl)
  rw [show (P₂.at P₂.next).toMark = P₁.next from congrArg Mark.next hvar.pc_eq] at hround
  exact ⟨hload.trans (henter.trans (hround.trans (hclose.links.trans hagain))), hroom⟩

theorem GenericForIs.links (hv : ∀ p ∈ values, p.Links fs) (hb : body.Links fs) :
    StatShape.Links fs (GenericForIs names values body) := by
  intro S exit P P' hmax hroom _ h
  obtain ⟨P₁, P₂, Q, new, call, hstate, hvars, hprep, hbody, -, hclose, hcall, hloop, rfl, -⟩ := h
  obtain ⟨hload, hroom₁⟩ := DeclareIs.links hv hmax hroom (by simp) hstate
  have hpast : S.Joint call.next.next.pc := .after_jump hloop rfl
  have hend : S.Joint call.pc := Or.inl ⟨_, hcall.1,
    Instruction.takesOpen_of_plain (Instruction.opcode?_abc ..) rfl⟩
  have hround := (hb (P := P₂.at P₂.next) hmax (hvars.room hroom₁) (Site.Joint.at_exit hpast)
    hbody).1
  have henter : Linked S fs P₁.toMark P₁.next none := .jump hprep rfl hend
  have hiterate : Linked S fs call call.next none := .plain hcall (Instruction.opcode?_abc ..) rfl
  have hagain : Linked S fs call.next call.next.next none := .jump hloop rfl (.after_jump hprep rfl)
  rw [show (P₂.at P₂.next).toMark = P₁.next from congrArg Mark.next hvars.pc_eq] at hround
  have htail := hclose.links.trans (hiterate.trans hagain)
  exact ⟨hload.trans (henter.trans (hround.trans htail)), hroom⟩

/-! ## Assignments -/

/-- The parts of a target leave nothing open. -/
def TargetPart.Links (fs : List FunctionBody) : TargetPart → Prop
  | .name _ => True
  | .index table key => table.Links fs ∧ key.Links fs

theorem AddressIs.links {t : TargetPart} {address : Address} (ht : t.Links fs)
    (hmax : S.Framed) (hroom : S.Room used)
    (h : AddressIs S opened used lo t address used' hi) :
    Linked S fs lo hi none ∧ S.Room used' := by
  cases h with
  | register | upvalue | global => exact ⟨.nil, hroom⟩
  | globalLoaded _ _ _ hroom' hkey => exact ⟨hkey.links, hroom'⟩
  | field hroom' htable hkey =>
    have hone : S.Room (used + 1) := hroom'.mono (Nat.le_succ _)
    exact ⟨(ht.1.one hmax hone htable).trans (ht.2.one hmax hroom' hkey), hroom'⟩

theorem AddressesAre.links (ht : ∀ t ∈ targets, t.Links fs)
    (hmax : S.Framed) (hroom : S.Room used)
    (h : AddressesAre S opened targets addresses used lo used' hi) :
    Linked S fs lo hi none ∧ S.Room used' := by
  induction h with
  | nil => exact ⟨.nil, hroom⟩
  | cons hfirst _ ih =>
    rw [List.forall_mem_cons] at ht
    obtain ⟨hlinked, hroom₁⟩ := hfirst.links ht.1 hmax hroom
    obtain ⟨hmore, hroom₂⟩ := ih ht.2 hroom₁
    exact ⟨hlinked.trans hmore, hroom₂⟩

theorem globalWrite_links {env : Operand} {key : Nat}
    (h : S.Writes (globalWrite env key value) lo hi) : Linked S fs lo hi none := by
  cases env <;> exact .plain h (Instruction.opcode?_abc ..) rfl

theorem StoresAre.links (h : StoresAre S addresses value lo hi) : Linked S fs lo hi none := by
  induction addresses generalizing value lo with
  | nil =>
    obtain rfl : hi = lo := h
    exact .nil
  | cons address rest ih =>
    refine Linked.trans ?_ (ih h.2)
    have hstore := h.1
    cases address with
    | register | upvalue | field => exact .plain hstore (Instruction.opcode?_abc ..) rfl
    | global env x key =>
      cases key with
      | some r => exact globalWrite_links hstore
      | none =>
        obtain ⟨i, -, -, hcode⟩ := hstore
        exact globalWrite_links hcode

theorem AssignIs.links (ht : ∀ t ∈ targets, t.Links fs) (hv : ∀ p ∈ values, p.Links fs) :
    StatShape.Links fs (AssignIs targets values) := by
  intro S exit P P' hmax hroom _ h
  obtain ⟨addresses, used, mid₁, mid₂, hi, haddr, hload, hstore, rfl⟩ := h
  obtain ⟨hlinked, hroom'⟩ := haddr.links ht hmax hroom
  exact ⟨hlinked.trans ((hload.links hv hmax hroom').trans hstore.links), hroom⟩

/-! ## Calls and returns -/

theorem CallStatIs.links (hc : callee.Links fs) (ha : ∀ p ∈ args, p.Links fs) :
    StatShape.Links fs (CallStatIs callee method args) := by
  intro S exit P P' hmax hroom _ h
  obtain ⟨hi, hroom', hcall, rfl⟩ := h
  exact ⟨hcall.links hc ha hmax hroom' (hroom'.mono (by omega)) (by decide), hroom⟩

/-- A return takes what is open. -/
theorem ret_links {a r : Nat} {n : Int} (h : Linked S fs lo mid (openingOf r n)) (hn : -1 ≤ n)
    (hlt : n < 0x1ff) (hr : a ≤ r) (hcode : S.Has mid.pc (.abc .ret a (countCode n) 0)) :
    Linked S fs lo mid.next none := by
  rw [countCode_eq hn hlt] at hcode
  have hop := Instruction.opcode?_abc .ret a (n + 1).toNat 0
  have hnone : (Instruction.abc .ret a (n + 1).toNat 0).opens? = none := Instruction.opens?_eq hop
  rw [← hnone]
  refine .step h hcode (follows_count hn ?_ ?_) (by simp [Instruction.leaps_eq hop])
  · rw [Instruction.takesOpen_eq hop, Instruction.b_abc, Nat.mod_eq_of_lt (by omega)]
    rfl
  · rw [if_pos hop, Instruction.a_abc]
    exact Nat.le_trans (Nat.mod_le _ _) hr

theorem ReturnCallIs.links (hc : callee.Links fs) (ha : ∀ p ∈ args, p.Links fs) :
    StatShape.Links fs (ReturnCallIs callee method args) := by
  intro S exit P P' hmax hroom _ h
  obtain ⟨n, mid, hroom', hlaid, ⟨hcall, -⟩, ⟨hret, -⟩, rfl⟩ := h
  obtain ⟨hn, hlt, r, hr, hlinked⟩ := hlaid.links hc ha hmax hroom'
  refine ⟨?_, hroom⟩
  generalize P.opened.length = a at hroom' hcall hret hr
  have hop := Instruction.opcode?_abc .tailCall a (countCode n) 0
  have hop' := Instruction.opcode?_abc .ret a (countCode allValues) 0
  have hamod : a % 0x100 = a := by
    have hpeak := hroom'.2
    unfold Site.Framed frameRegisters at hmax
    exact Nat.mod_eq_of_lt (by omega)
  have hopens : (Instruction.abc .tailCall a (countCode n) 0).opens? = some ⟨a, true⟩ := by
    rw [Instruction.opens?_eq hop, Instruction.a_abc, hamod]
    rfl
  have hcalled : Linked S fs P.toMark mid.next (some ⟨a, true⟩) := by
    rw [← hopens]
    refine .step hlinked hcall (follows_count hn ?_ ?_)
      (by simp [Instruction.leaps_eq hop])
    · rw [Instruction.takesOpen_eq hop, Instruction.b_abc, countCode_eq hn hlt,
        Nat.mod_eq_of_lt (by omega)]
      rfl
    · simpa [hop, hamod] using hr
  have hnone : (Instruction.abc .ret a (countCode allValues) 0).opens? = none :=
    Instruction.opens?_eq hop'
  rw [← hnone]
  refine .step hcalled hret ⟨?_, ?_, fun _ => ⟨hop', ?_⟩⟩
    (by simp [Instruction.leaps_eq hop'])
  · rw [Instruction.takesOpen_eq hop', Instruction.b_abc]
    rfl
  · rw [if_pos hop', Instruction.a_abc, hamod]
  · rw [Instruction.a_abc, hamod]

theorem ReturnIs.links (hv : ∀ p ∈ values, p.Links fs) : StatShape.Links fs (ReturnIs values) := by
  intro S exit P P' hmax hroom _ h
  cases h with
  | nothing _ hcode hpoint =>
    rw [hpoint]
    exact ⟨ret_links (r := 0) .nil (by decide) (by decide) le_rfl hcode.1, hroom⟩
  | @register x p v _ _ _ hcode hpoint =>
    rw [hpoint]
    exact ⟨ret_links (r := v.slot) .nil (by decide) (by decide) le_rfl hcode.1, hroom⟩
  | loaded hload hcode hpoint =>
    obtain ⟨lastWant, -, -, -, -, -, hn, hroom', -⟩ := hload.each hroom
    obtain ⟨r, hr, hlinked⟩ := hload.links hv hmax hroom
    have hpeak := hroom'.2
    unfold Site.Framed frameRegisters at hmax
    rw [hpoint]
    exact ⟨ret_links hlinked hn (by omega) hr hcode.1, hroom⟩

/-! ## The recursion -/

theorem StatShape.skip_links : StatShape.Links fs fun _ _ P P' => P' = P := by
  intro S exit P P' _ hroom _ h
  rw [h]
  exact ⟨.nil, hroom⟩

mutual

theorem Block.links : ∀ b : Block, b.functions ⊆ fs → b.shape.Links fs
  | ⟨stats, none, _⟩, h => Stat.linksAll stats h
  | ⟨stats, some values, _⟩, h => by
      rw [Block.functions, List.append_subset] at h
      have hstats := Stat.linksAll stats h.1
      have hvalues := Expr.parts_links values h.2
      rw [Block.shape.eq_def]
      dsimp only
      split
      · next heq => cases heq
      · next c heq =>
          cases heq
          have hc : c.functions ⊆ fs := (List.append_subset.mp h.2).1
          exact SeqIs.links hstats (ReturnCallIs.links (c.callee_links hc) (c.args_links hc))
      · next heq =>
          cases heq
          exact SeqIs.links hstats (ReturnIs.links hvalues)

theorem Stat.linksAll : ∀ ss : List Stat, Stat.functionsIn ss ⊆ fs → (Stat.shapeAll ss).Links fs
  | [], _ => StatShape.skip_links
  | s :: rest, h => SeqIs.links (Stat.links s (List.append_subset.mp h).1)
      (Stat.linksAll rest (List.append_subset.mp h).2)

theorem Stat.links : ∀ s : Stat, s.functions ⊆ fs → s.shape.Links fs
  | .empty, _ => StatShape.skip_links
  | .break _, _ => BreakIs.links
  | .label _ _, _ => fun _ _ _ _ _ _ _ h => h.elim
  | .goto _ _, _ => fun _ _ _ _ _ _ _ h => h.elim
  | .block body, h => ScopedIs.links (Block.links body h)
  | .call c, h => CallStatIs.links (c.callee_links h) (c.args_links h)
  | .whileLoop cond body _, h => WhileIs.links (Expr.links cond (List.append_subset.mp h).1)
      (Block.links body (List.append_subset.mp h).2)
  | .repeatLoop body cond _, h => RepeatIs.links (Expr.links cond (List.append_subset.mp h).2)
      (Block.links body (List.append_subset.mp h).1)
  | .ifChain arms, h => by
      intro S exit P P' hmax hroom hexit hshape
      have hsame : P'.opened = P.opened := ArmsAre.opened_eq hshape
      rw [hsame]
      exact ⟨(ArmsAre.links (Branch.links arms h) hmax hroom hexit hshape).1, hroom⟩
  | .numericFor _ init limit (some step) body _ _, h => by
      simp only [Stat.functions, List.append_subset] at h
      exact NumericForIs.links (Expr.links init h.1.1.1) (Expr.links limit h.1.1.2)
        (Expr.links step h.1.2) (Block.links body h.2)
  | .numericFor _ init limit none body _ _, h => by
      simp only [Stat.functions, List.append_subset] at h
      exact NumericForIs.links (Expr.links init h.1.1) (Expr.links limit h.1.2)
        (Part.constant_links _ _ rfl) (Block.links body h.2)
  | .genericFor _ values body _, h =>
    GenericForIs.links (Expr.parts_links values (List.append_subset.mp h).1)
      (Block.links body (List.append_subset.mp h).2)
  | .assign targets values _, h => AssignIs.links (Target.links targets (List.append_subset.mp h).1)
      (Expr.parts_links values (List.append_subset.mp h).2)
  | .declare _ values _, h => DeclareIs.links (Expr.parts_links values h)
  | .declareFunction _ _, h => DeclareFunctionIs.links h

theorem Branch.links : ∀ arms : List Branch, Branch.functions arms ⊆ fs →
    ∀ arm ∈ Branch.parts arms, arm.Links fs
  | [], _ => by simp [Branch.parts]
  | ⟨cond, body, _⟩ :: rest, h => by
      rw [Branch.functions, List.append_subset, List.append_subset] at h
      rw [Branch.parts, List.forall_mem_cons]
      exact ⟨⟨Expr.links cond h.1.1, Block.links body h.1.2⟩, Branch.links rest h.2⟩

theorem Target.links : ∀ targets : List Target, Target.functions targets ⊆ fs →
    ∀ t ∈ Target.parts targets, t.Links fs
  | [], _ => by simp [Target.parts]
  | .name x :: rest, h => by
      rw [Target.parts, List.forall_mem_cons]
      exact ⟨trivial, Target.links rest h⟩
  | .index table key :: rest, h => by
      rw [Target.functions, List.append_subset, List.append_subset] at h
      rw [Target.parts, List.forall_mem_cons]
      exact ⟨⟨Expr.links table h.1.1, Expr.links key h.1.2⟩, Target.links rest h.2⟩

end

end LuaLowering
