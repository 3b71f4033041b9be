import LuaLowering.Proofs.Lowering.Statement

/-!
# Lowering branches

An `if` writes its jumps before it knows where they lead: one past each arm whose
condition is false, and one out of each arm but the last. The first kind is aimed
as soon as the next arm begins, the second when all arms are written. Until then
they are holes of the stretch that was written, as pending breaks are.
-/

namespace LuaLowering

open LowerM

variable {safe : Prop} {w : Workspace} {holes new : List Nat} {w₀ : Workspace} {bs : List OpenBreak}
  {a : Nat} {op : Opcode} {m : Int} {arms : List Arm} {parts : List ArmPart}

/-- A test, whose jump is still to be aimed. -/
theorem branchUnless_spec {cond : Source} {cp : Part} (hc : cond.Meets safe cp) (hw : w.Wf)
    (line : Nat) :
    Ensures safe (branchUnless cond line) w fun pc w' => w'.used = w.used ∧
      ∃ mid : Mark, pc = mid.next.pc ∧ w'.mark = mid.next.next ∧
        w'.draft.code[pc]? = some (.asbx .jmp 0 0) ∧
        Loads [pc] w w' fun S =>
          ∃ r used, OperandIs S w.opened cp .register w.used w.mark r used mid ∧
            S.Writes (.abc .test r.field 0 0) mid mid.next := by
  unfold branchUnless
  refine (setLine_spec hw line).bind fun _ w₁ => ?_
  rintro ⟨hused₁, hmark₁, hload₁⟩
  rw [ensures_usedRegisters_bind]
  refine operand_freed_spec hc hload₁.wf _ w₁.used hload₁.wf.held le_rfl
    fun r w₂ w₃ hused₃ hmark₃ hload₃ => ?_
  refine (plain_spec hload₃.wf line _ _ _ _).bind fun _ w₄ => ?_
  rintro ⟨hused₄, hmark₄, hload₄⟩
  refine (asbx_hole hload₄.wf line _ 0).mono fun pc w₅ => ?_
  rintro ⟨rfl, hused₅, hmark₅, hjump, hload₅⟩
  have hload := ((hload₁.trans hload₃).trans hload₄).trans hload₅
  refine ⟨by omega, w₂.mark, ?_, ?_, hjump, hload.mono fun S hS ⟨⟨⟨_, hop⟩, htest⟩, _⟩ => ?_⟩
  · rw [← Workspace.pc_mark, hmark₄, hmark₃]
  · rw [hmark₅, hmark₄, hmark₃]
  · rw [hload₁.opened, hused₁, hmark₁] at hop
    have hr := (hop.small hw (hS.back hload.continues)).2 rfl
    rw [hmark₄, hmark₃] at htest
    exact ⟨r, _, hop, htest (Site.keeps_abc hr .zero .zero)⟩

theorem Workspace.AtRest.recoded {w' : Workspace} (h : w.AtRest) (hcode : Recoded w w') :
    w'.AtRest where
  used := by rw [hcode.used, hcode.opened, h.used]
  scopes := by rw [hcode.scopes]; exact h.scopes
  started := by
    intro i hi v hv
    rw [hcode.pc]
    exact h.started i (hcode.opened ▸ hi) v (hcode.locals ▸ hv)

/-- A jump of a stretch is aimed. -/
theorem Moves.aimJump {L : Site → Option Exit → Prop} {pc : Nat}
    (h : Moves (pc :: holes) w₀ w bs new L) (hp : pc ∉ holes) (hbs : pc ∉ bs.map (·.pc))
    (hcode : w.draft.code[pc]? = some (.asbx op a m)) (ha : a < 0x100) (target : Nat)
    (ht : target ≤ w.draft.pc) :
    Ensures safe (LuaLowering.aimJump pc target) w fun _ w' =>
      Recoded w w' ∧ (∀ q, q ≠ pc → w'.draft.code[q]? = w.draft.code[q]?) ∧
        Moves holes w₀ w' bs new fun S exit => L S exit ∧ S.Jumps op pc a target := by
  have hout : pc ∉ holes ++ bs.map (·.pc) := fun hmem => (List.mem_append.mp hmem).elim hp hbs
  refine (aimJump_wrote h.wrote hout hcode ha ht).mono fun _ w' => ?_
  rintro ⟨hcode', hkeep, hwrote⟩
  refine ⟨hcode', hkeep, ?_, hcode'.scopes.trans h.scopes, h.rest.recoded hcode', h.depth, h.order,
    h.loop⟩
  exact hwrote.mono fun S _ ⟨hL, hjump⟩ exit hexit => ⟨hL exit hexit, hjump⟩

theorem aimJumps_spec {target : Nat} {exits : List Nat} (ha : a < 0x100) :
    ∀ {w : Workspace} {L : Site → Option Exit → Prop}, Moves (exits ++ holes) w₀ w bs new L →
      exits.Pairwise (· < ·) → (∀ pc ∈ exits, pc ∉ holes ∧ pc ∉ bs.map (·.pc)) →
      (∀ pc ∈ exits, w.draft.code[pc]? = some (.asbx op a m)) → target ≤ w.draft.pc →
      Ensures safe (aimJumps target exits) w fun _ w' => Recoded w w' ∧
        Moves holes w₀ w' bs new fun S exit => L S exit ∧ ∀ pc ∈ exits, S.Jumps op pc a target := by
  induction exits with
  | nil =>
    intro w L h _ _ _ _
    exact ⟨.refl w, h.mono fun S _ exit hL => ⟨hL, fun _ hpc => (List.not_mem_nil hpc).elim⟩⟩
  | cons pc rest ih =>
    intro w L h horder hout hcode ht
    rw [List.pairwise_cons] at horder
    have hne : ∀ q ∈ rest, q ≠ pc := fun q hq => Nat.ne_of_gt (horder.1 q hq)
    obtain ⟨hholes, hbs⟩ := hout pc List.mem_cons_self
    have hpc : pc ∉ rest ++ holes :=
      fun hmem => (List.mem_append.mp hmem).elim (fun hrest => hne pc hrest rfl) hholes
    rw [aimJumps]
    refine (h.aimJump hpc hbs (hcode pc List.mem_cons_self) ha target ht).bind fun _ w₁ => ?_
    rintro ⟨hcode₁, hkeep₁, h₁⟩
    refine (ih h₁ horder.2 (fun q hq => hout q (List.mem_cons_of_mem _ hq)) (fun q hq => ?_)
      (hcode₁.pc ▸ ht)).mono fun _ w₂ => ?_
    · rw [hkeep₁ q (hne q hq)]
      exact hcode q (List.mem_cons_of_mem _ hq)
    · rintro ⟨hcode₂, h₂⟩
      refine ⟨hcode₁.trans hcode₂, h₂.mono fun S _ exit ⟨⟨hL, hjump⟩, hjumps⟩ => ⟨hL, ?_⟩⟩
      exact List.forall_mem_cons.mpr ⟨hjump, hjumps⟩

/-! ## Arms -/

/-- An arm is lowered to its part. -/
structure Arm.Meets (safe : Prop) (arm : Arm) (p : ArmPart) : Prop where
  cond : arm.cond.Meets safe p.cond
  body : Lowers safe arm.body p.body

/-- Arms of an `if` and their parts. -/
abbrev Arms.Meet (safe : Prop) : List Arm → List ArmPart → Prop := List.Forall₂ (Arm.Meets safe)

/-- An arm, whose jump past it is still to be aimed. -/
theorem lowerArm_spec {arm : Arm} {p : ArmPart} (ha : arm.Meets safe p) (hw : w.Wf)
    (hrest : w.AtRest) :
    Ensures safe (lowerArm arm) w fun skip w' => ∃ bs new,
      w'.draft.code[skip]? = some (.asbx .jmp 0 0) ∧ skip ∉ bs.map (·.pc) ∧
        Moves [skip] w w' bs new fun S exit => ∀ target, S.Jumps .jmp skip 0 target →
          ∃ top, TestIs p.cond S w.opened target w.mark top ∧
            ScopedIs p.body S exit (w.point.at top) w'.point := by
  unfold lowerArm
  refine (branchUnless_spec ha.cond hw arm.line).bind fun skip w₁ => ?_
  rintro ⟨hused₁, mid, hskip, hmark₁, hjump₁, hload₁⟩
  have hlt := (hload₁.within skip List.mem_cons_self).2
  refine (lowerScoped_lowers ha.body arm.lastLine hload₁.wf (hrest.loads hload₁ hused₁)).bind
    fun _ w₂ => ?_
  rintro ⟨bs, new, hadv⟩
  have hmoves := (Moves.of_loads hrest hload₁ hused₁).trans hadv
  refine ⟨bs ++ [], new ++ [], ?_, fun hmem => ?_, hmoves.mono fun S _ exit ⟨hcond, hbody⟩ target
    hjump => ?_⟩
  · rw [hadv.wrote.below skip hlt, hjump₁]
  · rw [List.append_nil] at hmem
    have := (hadv.wrote.within skip hmem).1
    omega
  · obtain ⟨r, used, hop, htest⟩ := hcond
    rw [hrest.used] at hop
    rw [hload₁.point] at hbody
    exact ⟨w₁.mark, ⟨r, used, mid, hop, htest, hskip ▸ hjump, hmark₁⟩, hbody⟩

theorem lowerArms_spec (h : Arms.Meet safe arms parts) :
    ∀ {w : Workspace}, w.Wf → w.AtRest →
      Ensures safe (lowerArms arms) w fun exits w' => ∃ bs new, exits.Pairwise (· < ·) ∧
        (∀ pc ∈ exits, w'.draft.code[pc]? = some (.asbx .jmp 0 0) ∧ pc ∉ bs.map (·.pc)) ∧
        Moves exits w w' bs new fun S exit => ∀ past, (∀ pc ∈ exits, S.Jumps .jmp pc 0 past) →
          ArmsAre S exit past parts w.point w'.point := by
  induction h with
  | nil =>
    intro w hw hrest
    exact ⟨[], [], .nil, fun _ hpc => (List.not_mem_nil hpc).elim,
      (Moves.of_loads hrest (.refl hw) rfl).mono fun _ _ _ _ _ _ => rfl⟩
  | @cons arm p rest ps ha hrest' ih =>
    intro w hw hrest
    cases hrest' with
    | nil =>
      rw [lowerArms]
      refine (lowerArm_spec ha hw hrest).bind fun skip w₁ => ?_
      rintro ⟨bs, new, hcode, hout, hmoves⟩
      refine ⟨bs, new, List.pairwise_singleton _ _, fun pc hpc => ?_,
        hmoves.mono fun S _ exit harm past hjumps => harm past (hjumps skip List.mem_cons_self)⟩
      obtain rfl := List.mem_singleton.mp hpc
      exact ⟨hcode, hout⟩
    | @cons arm' p' rest ps ha' hrest' =>
      rw [lowerArms.eq_3 _ _ (List.cons_ne_nil _ _)]
      refine (lowerArm_spec ha hw hrest).bind fun skip w₁ => ?_
      rintro ⟨bs₁, new₁, hcode₁, hout₁, hmoves₁⟩
      refine (asbx_hole hmoves₁.wrote.wf arm.lastLine .jmp 0).bind fun leave w₂ => ?_
      rintro ⟨rfl, hused₂, hmark₂, hjump₂, hload₂⟩
      have hskip := (hmoves₁.wrote.within skip List.mem_cons_self).2
      have hpc₂ : w₂.draft.pc = w₁.draft.pc + 1 := congrArg Mark.pc hmark₂
      have hmoves₂ : Moves [skip, w₁.draft.pc] w w₂ bs₁ new₁ _ :=
        hmoves₁.trans (.of_loads hmoves₁.rest hload₂ hused₂)
      -- a false condition goes on behind the jump out of the arm
      rw [ensures_here_bind]
      have hcode₂ : w₂.draft.code[skip]? = some (.asbx .jmp 0 0) := by
        rw [hload₂.below skip hskip, hcode₁]
      refine (hmoves₂.aimJump (List.mem_singleton.not.mpr (Nat.ne_of_lt hskip)) hout₁ hcode₂
        (by decide) w₂.draft.pc le_rfl).bind fun _ w₃ => ?_
      rintro ⟨hrec₃, hkeep₃, hmoves₃⟩
      have hpc₃ : w₃.draft.pc = w₁.draft.pc + 1 := hrec₃.pc.trans hpc₂
      refine (ih hmoves₃.wrote.wf hmoves₃.rest).bind fun exits w₄ => ?_
      rintro ⟨bs₂, new₂, horder, hexits, hmoves₄⟩
      have hlater : ∀ pc, pc ∈ exits ++ bs₂.map (·.pc) → w₁.draft.pc + 1 ≤ pc := fun pc hpc =>
        hpc₃ ▸ (hmoves₄.wrote.within pc hpc).1
      have hearlier : ∀ pc, pc ∈ bs₁.map (·.pc) → pc < w₁.draft.pc := fun pc hpc =>
        (hmoves₁.wrote.within pc (List.mem_cons_of_mem _ hpc)).2
      have hleave : w₄.draft.code[w₁.draft.pc]? = some (.asbx .jmp 0 0) := by
        rw [hmoves₄.wrote.below _ (by omega), hkeep₃ _ (Nat.ne_of_gt hskip), hjump₂]
      refine ⟨bs₂ ++ bs₁, new₂ ++ new₁, List.pairwise_cons.mpr ⟨fun pc hpc => ?_, horder⟩,
        List.forall_mem_cons.mpr ⟨⟨hleave, fun hmem => ?_⟩, fun pc hpc =>
          ⟨(hexits pc hpc).1, fun hmem => ?_⟩⟩, ?_⟩
      · exact hlater pc (List.mem_append_left _ hpc)
      · rcases List.mem_append.mp (List.map_append ▸ hmem) with h | h
        · exact Nat.not_succ_le_self _ (hlater _ (List.mem_append_right _ h))
        · exact Nat.lt_irrefl _ (hearlier _ h)
      · rcases List.mem_append.mp (List.map_append ▸ hmem) with h | h
        · exact (hexits pc hpc).2 h
        · have hlo := hlater pc (List.mem_append_left _ hpc)
          have hhi := hearlier pc h
          omega
      · refine (hmoves₃.trans hmoves₄).mono fun S _ exit ⟨⟨⟨harm, _⟩, hjump⟩, hmore⟩ past hjumps =>
          ?_
        rw [hpc₂] at hjump
        obtain ⟨top, htest, hbody⟩ := harm _ hjump
        have hpoint : w₃.point = w₁.point.at w₁.mark.next := by
          rw [hrec₃.point, hload₂.point, hmark₂]
        refine ⟨top, w₁.point, htest, hbody, hjumps _ List.mem_cons_self, ?_⟩
        show ArmsAre S exit past (p' :: ps) (w₁.point.at w₁.mark.next) w₄.point
        rw [← hpoint]
        exact hmore past fun pc hpc => hjumps pc (List.mem_cons_of_mem _ hpc)

theorem lowerIf_lowers (h : Arms.Meet safe arms parts) :
    Lowers safe (lowerIf arms) (IfIs parts) := by
  intro w hw hrest
  unfold lowerIf
  refine (lowerArms_spec h hw hrest).bind fun exits w₁ => ?_
  rintro ⟨bs, new, horder, hexits, hmoves⟩
  rw [ensures_here_bind]
  rw [← List.append_nil exits] at hmoves
  refine (aimJumps_spec (by decide) hmoves horder
    (fun pc hpc => ⟨List.not_mem_nil, (hexits pc hpc).2⟩)
    (fun pc hpc => (hexits pc hpc).1) le_rfl).mono fun _ w₂ => ?_
  rintro ⟨hcode, hmoves₂⟩
  refine ⟨bs, new, hmoves₂.mono fun S _ exit ⟨harms, hjumps⟩ => ?_⟩
  show ArmsAre S exit w₂.draft.pc parts w.point w₂.point
  rw [hcode.point, hcode.pc]
  exact harms _ fun pc hpc => hjumps pc (by simpa using hpc)

end LuaLowering
