import LuaLowering.Proofs.Sequence.Statement

/-!
# Scopes over the code

What is left of a statement when only its locals matter: code is passed over,
locals begin where the code has got to, and those of a scope end together where it
ends. The state of a `for` is a scope around that of its variables, which is why
it can end later, so that loops need nothing of their own here.
-/

namespace LuaLowering

variable {S : Site} {fs : List FunctionBody} {exit : Option Exit} {P P' Q : Point} {lo hi : Mark}
  {names : List String} {startPc : Nat} {j : Nat} {v : Local} {m : Mark} {cond callee : Part}
  {body : StatShape} {values args : List Part} {method : Option String}

/-- The open locals have been declared. -/
def Point.Wf (P : Point) : Prop := ∀ j ∈ P.opened, j < P.declared

/-- A local is open at a point, or is declared between it and another. -/
def Among (P P' : Point) (j : Nat) : Prop := j ∈ P.opened ∨ P.declared ≤ j ∧ j < P'.declared

/-! ## Declarations -/

section

variable (h : Declares S startPc names P P')

include h

theorem Declares.declared_eq : P'.declared = P.declared + names.length := by
  induction names generalizing P with
  | nil =>
    obtain rfl : P' = P := h
    rfl
  | cons x rest ih =>
    have hrest : P'.declared = P.declared + 1 + rest.length := ih h.2.2
    rw [hrest, List.length_cons]
    omega

theorem Declares.mem_opened (j : Nat) :
    j ∈ P'.opened ↔ j ∈ P.opened ∨ P.declared ≤ j ∧ j < P'.declared := by
  induction names generalizing P with
  | nil =>
    obtain rfl : P' = P := h
    constructor
    · exact Or.inl
    · rintro (hj | hj)
      · exact hj
      · omega
  | cons x rest ih =>
    have hlen : P'.declared = P.declared + 1 + rest.length := h.2.2.declared_eq
    rw [ih h.2.2, List.mem_cons]
    by_cases hj : j ∈ P.opened
    · simp [hj]
    · simp only [hj, or_false, false_or]
      omega

theorem Declares.opened_eq : ∃ new, P'.opened = new ++ P.opened ∧ ∀ j ∈ new, P.declared ≤ j := by
  induction names generalizing P with
  | nil =>
    obtain rfl : P' = P := h
    exact ⟨[], rfl, by simp⟩
  | cons x rest ih =>
    obtain ⟨new, hopened, hnew⟩ := ih h.2.2
    refine ⟨new ++ [P.declared], by simp [hopened], fun j hj => ?_⟩
    rcases List.mem_append.mp hj with hj | hj
    · exact Nat.le_of_succ_le (hnew j hj)
    · exact Nat.le_of_eq (List.mem_singleton.mp hj).symm

/-- What is declared begins where it should, above the open locals. -/
theorem Declares.local (hge : P.declared ≤ j) (hlt : j < P'.declared)
    (hv : S.draft.locals[j]? = some v) :
    v.name ∈ names ∧ v.startPc = startPc ∧ P.opened.length ≤ v.slot := by
  induction names generalizing P with
  | nil =>
    obtain rfl : P' = P := h
    omega
  | cons x rest ih =>
    obtain ⟨⟨w, hw, hname, hslot, hstart⟩, -, hrest⟩ := h
    rcases Nat.eq_or_lt_of_le hge with rfl | hgt
    · obtain rfl := Option.some.inj (hv.symm.trans hw)
      exact ⟨hname ▸ List.mem_cons_self, hstart, Nat.le_of_eq hslot.symm⟩
    · obtain ⟨hname', hstart', hslot'⟩ := ih hrest hgt
      exact ⟨List.mem_cons_of_mem _ hname', hstart', Nat.le_of_succ_le hslot'⟩

end

theorem Site.EndAt.eq {pc : Nat} {is : List Nat} (h : S.EndAt pc is) (hj : j ∈ is)
    (hv : S.draft.locals[j]? = some v) : v.endPc = pc := by
  obtain ⟨w, hw, hend⟩ := h j hj
  obtain rfl := Option.some.inj (hv.symm.trans hw)
  exact hend

theorem Declares.wf (h : Declares S startPc names P P') (hP : P.Wf) : P'.Wf := by
  intro j hj
  rcases (h.mem_opened j).mp hj with hold | hnew
  · have hlt := hP j hold
    rw [h.declared_eq]
    omega
  · exact hnew.2

/-! ## Layouts -/

/-- How locals come and go between two points. -/
inductive Layout (S : Site) : Point → Point → Prop
  | code {P : Point} {m : Mark} (hle : P.pc ≤ m.pc) : Layout S P (P.at m)
  | seq {P Q P' : Point} (hfirst : Layout S P Q) (hrest : Layout S Q P') : Layout S P P'
  | declare {P P' : Point} {names : List String} (hdecl : Declares S P.pc names P P') :
      Layout S P P'
  | scope {P Q P' : Point} {new : List Nat} (hbody : Layout S P Q)
      (hopened : Q.opened = new ++ P.opened) (hle : Q.pc ≤ P'.pc) (hend : S.EndAt P'.pc new)
      (hsame : P'.opened = P.opened) (hdecl : P'.declared = Q.declared) : Layout S P P'

namespace Layout

section

variable (h : Layout S P P')

include h

theorem le : P.pc ≤ P'.pc := by
  induction h with
  | code hle => exact hle
  | seq _ _ ih ih' => exact Nat.le_trans ih ih'
  | declare hdecl => rw [hdecl.pc_eq]
  | scope _ _ hle _ _ _ ih => exact Nat.le_trans ih hle

theorem declared_le : P.declared ≤ P'.declared := by
  induction h with
  | code => exact le_rfl
  | seq _ _ ih ih' => exact Nat.le_trans ih ih'
  | declare hdecl =>
    rw [hdecl.declared_eq]
    exact Nat.le_add_right _ _
  | scope _ _ _ _ _ hdecl ih => exact hdecl ▸ ih

/-- What was open stays open, under what is new. -/
theorem opened_eq : ∃ new, P'.opened = new ++ P.opened ∧ ∀ j ∈ new, P.declared ≤ j := by
  induction h with
  | code => exact ⟨[], rfl, by simp⟩
  | seq hfirst _ ih ih' =>
    obtain ⟨new, hopened, hnew⟩ := ih
    obtain ⟨new', hopened', hnew'⟩ := ih'
    refine ⟨new' ++ new, by rw [hopened', hopened, List.append_assoc], fun j hj => ?_⟩
    rcases List.mem_append.mp hj with hj | hj
    · exact Nat.le_trans hfirst.declared_le (hnew' j hj)
    · exact hnew j hj
  | declare hdecl => exact hdecl.opened_eq
  | scope _ _ _ _ hsame _ _ => exact ⟨[], hsame, by simp⟩

theorem suffix : P.opened <:+ P'.opened := by
  obtain ⟨new, hopened, -⟩ := h.opened_eq
  exact ⟨new, hopened.symm⟩

theorem wf (hP : P.Wf) : P'.Wf := by
  induction h with
  | code => exact hP
  | seq _ _ ih ih' => exact ih' (ih hP)
  | declare hdecl => exact hdecl.wf hP
  | scope hbody _ _ _ hsame hdecl _ =>
    intro j hj
    rw [hsame] at hj
    rw [hdecl]
    exact Nat.lt_of_lt_of_le (hP j hj) hbody.declared_le

/-- What is open at the end was open at the start or is declared in between. -/
theorem among (hP : P.Wf) : ∀ j ∈ P'.opened, Among P P' j := by
  intro j hj
  have hlt := h.wf hP j hj
  obtain ⟨new, hopened, hnew⟩ := h.opened_eq
  rcases List.mem_append.mp (hopened ▸ hj) with hj | hj
  · exact Or.inr ⟨hnew j hj, hlt⟩
  · exact Or.inl hj

theorem room (hP : S.Room P.opened.length) : S.Room P'.opened.length := by
  induction h with
  | code => exact hP
  | seq _ _ ih ih' => exact ih' (ih hP)
  | declare hdecl => exact hdecl.room hP
  | scope _ _ _ _ hsame _ _ => exact hsame ▸ hP

/-- Code after a layout. -/
theorem then_code (hle : P'.pc ≤ m.pc) : Layout S P (P'.at m) :=
  .seq h (.code hle)

end

/-- Code before a layout. -/
theorem after_code (h : Layout S (P.at m) P') (hle : P.pc ≤ m.pc) : Layout S P P' :=
  .seq (.code hle) h

end Layout

/-! ## Statements -/

/-- The code of a statement lays out its locals. -/
def StatShape.Lays (body : StatShape) : Prop :=
  ∀ ⦃S : Site⦄ ⦃exit : Option Exit⦄ ⦃P P' : Point⦄, S.Framed →
    S.Room P.opened.length → P.Wf → body S exit P P' → Layout S P P'

theorem TestIs.le {target : Nat} {opened : List Nat} (hc : cond.Links fs)
    (hmax : S.Framed) (h : TestIs cond S opened target lo hi) :
    lo.pc ≤ hi.pc := by
  obtain ⟨r, used, mid, hoperand, -, -, rfl⟩ := h
  have hle := (hoperand.links hc hmax).le
  simp only [Mark.pc_next]
  omega

theorem ScopedIs.lays (hb : body.Lays) : StatShape.Lays (ScopedIs body) := by
  intro S exit P P' hmax hroom hP h
  obtain ⟨Q, new, hbody, hopened, hclose, hend, hsame, hdecl⟩ := h
  exact .scope (hb hmax hroom hP hbody) hopened hclose.le hend hsame hdecl

theorem SeqIs.lays {first second : StatShape} (h₁ : first.Lays) (h₂ : second.Lays) :
    StatShape.Lays (SeqIs first second) := by
  intro S exit P P' hmax hroom hP h
  obtain ⟨Q, hfirst, hsecond⟩ := h
  have hlay := h₁ hmax hroom hP hfirst
  exact .seq hlay (h₂ hmax (hlay.room hroom) (hlay.wf hP) hsecond)

theorem BreakIs.lays : StatShape.Lays BreakIs := by
  intro S exit P P' _ _ _ h
  obtain ⟨e, -, -, rfl⟩ := h
  exact .code (Nat.le_succ _)

theorem WhileIs.lays (hc : cond.Links fs) (hb : body.Lays) :
    StatShape.Lays (WhileIs cond body) := by
  intro S exit P P' hmax hroom hP h
  obtain ⟨top, Q, new, back, htest, hbody, hopened, hclose, -, rfl, hend⟩ := h
  have hround := (hb (P := P.at top) hmax hroom hP hbody).after_code (htest.le hc hmax)
  exact .scope hround hopened (Nat.le_succ_of_le hclose.le) hend rfl rfl

theorem RepeatIs.lays (hc : cond.Links fs) (hb : body.Lays) :
    StatShape.Lays (RepeatIs body cond) := by
  intro S exit P P' hmax hroom hP h
  obtain ⟨Q, new, r, used, mid, hbody, hopened, hoperand, -, -, hclose, hend, hsame, hdecl⟩ := h
  have hle := (hoperand.links hc hmax).le
  have hle' := hclose.le
  simp only [Mark.pc_next] at hle'
  exact .scope (hb hmax hroom hP hbody) hopened (by omega) hend hsame hdecl

/-- The parts of an arm. -/
structure ArmPart.Lays (arm : ArmPart) : Prop where
  cond : ∃ fs, arm.cond.Links fs
  body : arm.body.Lays

theorem ArmsAre.lays {past : Nat} {arms : List ArmPart} (harms : ∀ arm ∈ arms, arm.Lays)
    (hmax : S.Framed) (hroom : S.Room P.opened.length) (hP : P.Wf)
    (h : ArmsAre S exit past arms P P') : Layout S P P' := by
  induction arms generalizing P with
  | nil =>
    obtain rfl : P' = P := h
    exact .code le_rfl
  | cons arm rest ih =>
    rw [List.forall_mem_cons] at harms
    obtain ⟨fs, hcond⟩ := harms.1.cond
    cases rest with
    | nil =>
      obtain ⟨top, htest, hscope⟩ := h
      exact (ScopedIs.lays harms.1.body (P := P.at top) hmax hroom hP hscope).after_code
        (htest.le hcond hmax)
    | cons next rest =>
      obtain ⟨top, Q, htest, hscope, -, hrest⟩ := h
      have harm := (ScopedIs.lays harms.1.body (P := P.at top) hmax hroom hP hscope).after_code
        (htest.le hcond hmax)
      have hleave := harm.then_code (m := Q.next) (Nat.le_succ _)
      exact .seq hleave (ih harms.2 (hleave.room hroom) (hleave.wf hP) hrest)

theorem DeclareIs.lays (hv : ∀ p ∈ values, p.Links fs) :
    StatShape.Lays (DeclareIs names values) := by
  intro S exit P P' hmax hroom _ h
  obtain ⟨mid, hload, hdecl⟩ := h
  exact Layout.after_code (.declare hdecl) (hload.links hv hmax hroom).le

theorem DeclareFunctionIs.lays {x : String} {f : FunctionBody} :
    StatShape.Lays (DeclareFunctionIs x f.written) := by
  intro S exit P P' _ _ _ h
  obtain ⟨P₁, hi, hdecl, ⟨inner, -, -, rfl, -⟩, rfl⟩ := h
  have hlay : Layout S (P.at ⟨P.pc + 1, P.nested + 1⟩) (P₁.at ⟨P.pc + 1, P.nested + 1⟩) :=
    .declare (hdecl.at _)
  exact hlay.after_code (Nat.le_succ _)

/-- A loop whose state is a scope around that of its variables. -/
theorem DeclareIs.loop {state : List String} {P₁ P₂ : Point} {new : List Nat} {call : Mark}
    (hv : ∀ p ∈ values, p.Links fs) (hb : body.Lays) (hmax : S.Framed)
    (hroom : S.Room P.opened.length) (hP : P.Wf) (hstate : DeclareIs state values S none P P₁)
    (hthree : state.length = 3) (hnames : Declares S (P₁.pc + 1) names P₁ P₂)
    (hbody : body S exit (P₂.at P₂.next) Q) (hopened : Q.opened = new ++ P.opened)
    (hcall : Q.pc ≤ call.pc) (hback : call.pc ≤ P'.pc) (hsame : P'.opened = P.opened)
    (hdecl : P'.declared = Q.declared) (hend : S.EndAt P'.pc (new.filter (· < P.declared + 3)))
    (hend' : S.EndAt call.pc (new.filter (P.declared + 3 ≤ ·))) : Layout S P P' := by
  have hlay := DeclareIs.lays hv hmax hroom hP hstate
  have hdeclared : P₁.declared = P.declared + 3 := by
    obtain ⟨mid, -, hdecl⟩ := hstate
    rw [← hthree]
    exact hdecl.declared_eq
  have hmark : P₂.next = P₁.next := congrArg Mark.next hnames.pc_eq
  rw [hmark] at hbody
  have hround := hb (P := P₂.at P₁.next) hmax (hnames.room (hlay.room hroom))
    (hnames.wf (hlay.wf hP)) hbody
  have hvars : Layout S (P₁.at P₁.next) (P₂.at P₁.next) := .declare (hnames.at P₁.next)
  have hinside : Layout S P₁ Q := .after_code (.seq hvars hround) (Nat.le_succ _)
  -- the variables of the loop and of its body lie above its state
  obtain ⟨inner, hinner, hhigh⟩ := hinside.opened_eq
  obtain ⟨outer, hunder, -⟩ := hlay.opened_eq
  have hnew : new = inner ++ outer := by
    rw [hinner, hunder, ← List.append_assoc] at hopened
    exact (List.append_cancel_right hopened).symm
  have hturn : Layout S P₁ ⟨call, P₁.opened, Q.declared⟩ := by
    refine .scope hinside hinner hcall (fun j hj => hend' j ?_) rfl rfl
    have hge := hhigh j hj
    exact List.mem_filter.mpr ⟨hnew ▸ List.mem_append_left _ hj, by simp; omega⟩
  refine .scope (.seq hlay hturn) hunder hback (fun j hj => hend j ?_) hsame hdecl
  have hlt := hlay.wf hP j (hunder ▸ List.mem_append_left _ hj)
  exact List.mem_filter.mpr ⟨hnew ▸ List.mem_append_right _ hj, by simp; omega⟩

theorem NumericForIs.lays {var : String} {init limit step : Part}
    (hparts : ∀ p ∈ [init, limit, step], p.Links fs) (hb : body.Lays) :
    StatShape.Lays (NumericForIs var init limit step body) := by
  intro S exit P P' hmax hroom hP h
  obtain ⟨P₁, P₂, Q, new, loop, hstate, hvar, -, hbody, hopened, hclose, -, rfl, hend, hend'⟩ := h
  exact DeclareIs.loop hparts hb hmax hroom hP hstate rfl hvar hbody hopened hclose.le
    (Nat.le_succ _) rfl rfl hend hend'

theorem GenericForIs.lays (hv : ∀ p ∈ values, p.Links fs) (hb : body.Lays) :
    StatShape.Lays (GenericForIs names values body) := by
  intro S exit P P' hmax hroom hP h
  obtain ⟨P₁, P₂, Q, new, call, hstate, hvars, -, hbody, hopened, hclose, -, -, rfl, hend, hend'⟩ :=
    h
  exact DeclareIs.loop hv hb hmax hroom hP hstate rfl hvars hbody hopened hclose.le
    (Nat.le_add_right _ 2) rfl rfl hend hend'

theorem AssignIs.lays {targets : List TargetPart} (ht : ∀ t ∈ targets, t.Links fs)
    (hv : ∀ p ∈ values, p.Links fs) : StatShape.Lays (AssignIs targets values) := by
  intro S exit P P' hmax hroom _ h
  obtain ⟨addresses, used, mid₁, mid₂, hi, haddr, hload, hstore, rfl⟩ := h
  obtain ⟨hlinked, hroom'⟩ := haddr.links ht hmax hroom
  exact .code (hlinked.trans ((hload.links hv hmax hroom').trans hstore.links)).le

theorem CallStatIs.lays (hc : callee.Links fs) (ha : ∀ p ∈ args, p.Links fs) :
    StatShape.Lays (CallStatIs callee method args) := by
  intro S exit P P' hmax _ _ h
  obtain ⟨hi, hroom, hcall, rfl⟩ := h
  exact .code (hcall.links hc ha hmax hroom (hroom.mono (by omega)) (by decide)).le

theorem ReturnCallIs.lays (hc : callee.Links fs) (ha : ∀ p ∈ args, p.Links fs) :
    StatShape.Lays (ReturnCallIs callee method args) := by
  intro S exit P P' hmax _ _ h
  obtain ⟨n, mid, hroom, hlaid, -, -, rfl⟩ := h
  obtain ⟨-, -, r, -, hlinked⟩ := hlaid.links hc ha hmax hroom
  exact .code (Nat.le_trans hlinked.le (Nat.le_add_right _ 2))

theorem ReturnIs.lays (hv : ∀ p ∈ values, p.Links fs) : StatShape.Lays (ReturnIs values) := by
  intro S exit P P' hmax hroom _ h
  cases h with
  | nothing _ _ hpoint | register _ _ _ _ hpoint =>
    rw [hpoint]
    exact .code (Nat.le_succ _)
  | loaded hload _ hpoint =>
    obtain ⟨r, -, hlinked⟩ := hload.links hv hmax hroom
    rw [hpoint]
    exact .code (Nat.le_succ_of_le hlinked.le)

/-! ## The recursion -/

theorem StatShape.skip_lays : StatShape.Lays fun _ _ P P' => P' = P := by
  intro S exit P P' _ _ _ h
  rw [h]
  exact .code le_rfl

mutual

theorem Block.lays : ∀ b : Block, b.shape.Lays
  | ⟨stats, none, _⟩ => Stat.laysAll stats
  | ⟨stats, some values, _⟩ => by
      have hstats := Stat.laysAll stats
      rw [Block.shape.eq_def]
      dsimp only
      split
      · next heq => cases heq
      · next c heq =>
          cases heq
          exact SeqIs.lays hstats (ReturnCallIs.lays (c.callee_links (List.Subset.refl _))
            (c.args_links (List.Subset.refl _)))
      · next heq =>
          cases heq
          exact SeqIs.lays hstats (ReturnIs.lays (Expr.parts_links values (List.Subset.refl _)))

theorem Stat.laysAll : ∀ ss : List Stat, (Stat.shapeAll ss).Lays
  | [] => StatShape.skip_lays
  | s :: rest => SeqIs.lays (Stat.lays s) (Stat.laysAll rest)

theorem Stat.lays : ∀ s : Stat, s.shape.Lays
  | .empty => StatShape.skip_lays
  | .break _ => BreakIs.lays
  | .label _ _ => fun _ _ _ _ _ _ _ h => h.elim
  | .goto _ _ => fun _ _ _ _ _ _ _ h => h.elim
  | .block body => ScopedIs.lays (Block.lays body)
  | .call c => CallStatIs.lays (c.callee_links (List.Subset.refl _))
      (c.args_links (List.Subset.refl _))
  | .whileLoop cond body _ => WhileIs.lays (Expr.links cond (List.Subset.refl _)) (Block.lays body)
  | .repeatLoop body cond _ => RepeatIs.lays (Expr.links cond (List.Subset.refl _))
      (Block.lays body)
  | .ifChain arms => fun _ _ _ _ hmax hroom hP h =>
    ArmsAre.lays (Branch.lays arms) hmax hroom hP h
  | .numericFor var init limit step body forLine doLine => by
      rw [Stat.shape_numericFor]
      exact NumericForIs.lays (Expr.parts_links [init, limit, step.getD (.integer 1)]
        (List.Subset.refl _)) (Block.lays body)
  | .genericFor _ values body _ =>
    GenericForIs.lays (Expr.parts_links values (List.Subset.refl _)) (Block.lays body)
  | .assign targets values _ => AssignIs.lays
      (Target.links targets (List.subset_append_left _ (Expr.functionsIn values)))
      (Expr.parts_links values (List.subset_append_right _ _))
  | .declare _ values _ => DeclareIs.lays (Expr.parts_links values (List.Subset.refl _))
  | .declareFunction _ _ => DeclareFunctionIs.lays

theorem Branch.lays : ∀ arms : List Branch, ∀ arm ∈ Branch.parts arms, arm.Lays
  | [] => by simp [Branch.parts]
  | ⟨cond, body, _⟩ :: rest => by
      rw [Branch.parts, List.forall_mem_cons]
      exact ⟨⟨⟨_, Expr.links cond (List.Subset.refl _)⟩, Block.lays body⟩, Branch.lays rest⟩

end

end LuaLowering
