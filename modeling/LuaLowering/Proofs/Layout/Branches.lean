import LuaLowering.Proofs.Layout.Loops

/-!
# How the arms of an `if` are laid out

An arm is a condition, its test with the jump that is taken when it is false, and a block.
Every arm but the last is followed by a jump past all of them. The jumps of the conditions
are aimed as soon as the next arm begins, the others when the last arm is done, so what an
arm looks like in the end is said of a state that agrees with the present one but for the
jumps that still wait.
-/

namespace LuaLowering

open LowerM

variable {w w₁ w₂ w₃ w' : Workspace} {lo : Nat} {sites : Workspace → List Nat} {arm : Arm}
  {r : ArmRun} {arms : List Arm}

/-! ## Blocks -/

theorem lowerScoped_carries {body : LowerM Unit} (hb : CarriesFrom body sites) (lastLine : Nat) :
    CarriesFrom (lowerScoped body lastLine) fun w => sites (stateAfter (openScope false) w) := by
  intro w
  refine ((openScope_enters (.refl w w.draft.pc) rfl).and (ensures_run _ w)).bind fun _ w₁ h₁ => ?_
  obtain ⟨⟨hopen, hpc₁⟩, hrun⟩ := h₁
  simp only [stateAfter_of_ok hrun]
  refine (hb w₁).bind fun _ w₂ h₂ => ?_
  have hle := h₂.pc
  refine (closeCaptured_carries w.draft.pc lastLine (by omega)).bind fun _ w₃ h₃ => ?_
  have hbody : w₁.Carries w.draft.pc (sites w₁) w₃ := by
    simpa using (h₂.mono (Nat.le_of_eq hpc₁.symm)).trans h₃.1
  rw [ensures_here_bind]
  exact (closeScope_carries hopen hbody rfl _).mono fun _ w₄ h₄ => h₄.2

/-! ## One arm -/

/-- The states that the lowering of an arm goes through: at its start, with its condition in
place, with the condition tested, and at its end. -/
structure ArmRun where
  start : Workspace
  loaded : Workspace
  operand : Operand
  tested : Workspace
  stop : Workspace

namespace ArmRun

/-- Where the condition is tested. -/
def test (r : ArmRun) : Nat := r.loaded.draft.pc

/-- Where the jump stands that is taken if the condition is false. -/
def skip (r : ArmRun) : Nat := r.test + 1

/-- An arm was lowered this way, and its code is still there: that of the condition, the test
and that of the block with what closes it. -/
structure Lowers (r : ArmRun) (arm : Arm) (w' : Workspace) : Prop where
  branch : branchUnless arm.cond arm.line r.start = .ok r.skip r.tested
  tests : r.start.Tests arm.cond r.loaded r.operand r.tested
  body : lowerScoped arm.body arm.lastLine r.tested = .ok () r.stop
  cond : r.start.Straight r.start.used r.loaded
  block : r.tested.Contained r.tested.draft.pc r.stop
  condCode : ∀ pc, r.start.draft.pc ≤ pc → pc < r.test →
    w'.draft.code[pc]? = r.loaded.draft.code[pc]?
  testCode : w'.draft.code[r.test]? = some (.abc .test r.operand.field 0 0)
  blockCode : ∀ pc, r.tested.draft.pc ≤ pc → pc < r.stop.draft.pc →
    w'.draft.code[pc]? = r.stop.draft.code[pc]?

end ArmRun

/-- An arm with straight code for its condition and contained code for its block. -/
structure Arm.Fits (arm : Arm) (sites : Workspace → List Nat) : Prop where
  cond : arm.cond.Tidy
  body : CarriesFrom arm.body sites

/-- The places of the breaks in an arm. -/
def Arm.breaks (arm : Arm) (sites : Workspace → List Nat) (w : Workspace) : List Nat :=
  sites (stateAfter (openScope false) (stateAfter (branchUnless arm.cond arm.line) w))

/-- An arm was lowered; its false-jump still waits for a target. -/
structure Workspace.LowersArm (w : Workspace) (arm : Arm) (sites : List Nat) (r : ArmRun)
    (w₁ : Workspace) : Prop where
  start : r.start = w
  stop : r.stop = w₁
  carries : w.Carries w.draft.pc sites w₁
  first : w.draft.pc ≤ r.skip
  jump : w₁.draft.code[r.skip]? = some (.asbx .jmp 0 0)
  lowers : ∀ w' : Workspace, (∀ pc, w.draft.pc ≤ pc → pc < w₁.draft.pc → pc ≠ r.skip →
    w'.draft.code[pc]? = w₁.draft.code[pc]?) → r.Lowers arm w'

theorem lowerArm_laid (h : arm.Fits sites) :
    Ensures False (lowerArm arm) w fun skip w₁ =>
      ∃ r : ArmRun, r.skip = skip ∧ w.LowersArm arm (arm.breaks sites w) r w₁ := by
  refine (((branchUnless_tests h.cond arm.line).and (branchUnless_scopes h.cond arm.line)).and
    (ensures_run _ w)).bind fun skip tested h₁ => ?_
  obtain ⟨⟨⟨loaded, o, htests, rfl⟩, hscopes⟩, hrun₁⟩ := h₁
  have hpc := htests.pc
  refine ((lowerScoped_carries h.body arm.lastLine tested).and (ensures_run _ tested)).bind
    fun _ w₁ h₂ => ?_
  obtain ⟨hblock, hrun₂⟩ := h₂
  have hle := hblock.pc
  have hcond := (htests.finds.straight h.cond le_rfl).1
  have hlecond := hcond.pc
  refine ⟨⟨w, loaded, o, tested, w₁⟩, rfl, rfl, rfl, ?_, Nat.le_succ_of_le hlecond, ?_,
    fun w' hw' => ?_⟩
  · have hto : w.Carries w.draft.pc [] tested :=
      .of_contained (htests.straight.contained le_rfl) hscopes
    rw [Arm.breaks, stateAfter_of_ok hrun₁]
    simpa using hto.trans (hblock.mono (by omega))
  · exact (hblock.kept (loaded.draft.pc + 1) (by omega)).trans htests.jump
  · -- the test and its jump are the two instructions between the condition and the block
    have hbelow : ∀ pc, w.draft.pc ≤ pc → pc ≤ loaded.draft.pc →
        w'.draft.code[pc]? = tested.draft.code[pc]? := by
      intro pc hge hlt
      rw [hw' pc hge (by omega) (Nat.ne_of_lt (Nat.lt_succ_of_le hlt)), hblock.kept pc (by omega)]
    refine ⟨hrun₁, htests, hrun₂, hcond, hblock.toContained, fun pc hge hlt => ?_, ?_,
      fun pc hge hlt => ?_⟩
    · exact (hbelow pc hge (Nat.le_of_lt hlt)).trans (htests.kept pc hlt)
    · exact (hbelow _ hlecond le_rfl).trans htests.test
    · have hge' : loaded.draft.pc + 2 ≤ pc := hpc ▸ hge
      exact hw' pc (by omega) hlt (Nat.ne_of_gt hge')

/-! ## An arm that is followed by another -/

/-- Lowers an arm that is followed by another and gives the position of the jump past the
others. -/
def passArm (arm : Arm) : LowerM Nat := do
  let skip ← lowerArm arm
  let leave ← Emit.jump arm.lastLine 0 0
  aimJump skip (← here)
  pure leave

theorem lowerArms_cons (arm next : Arm) (arms : List Arm) :
    lowerArms (arm :: next :: arms) = (do
      let leave ← passArm arm
      let others ← lowerArms (next :: arms)
      pure (leave :: others)) := by
  simp only [lowerArms, passArm, bind_assoc, pure_bind]

/-- An arm was lowered, and the jump past the arms that follow still waits for a target. -/
structure Workspace.PassesArm (w : Workspace) (arm : Arm) (sites : List Nat) (r : ArmRun)
    (w₂ : Workspace) : Prop where
  start : r.start = w
  carries : w.Carries w.draft.pc sites w₂
  pc : w₂.draft.pc = r.stop.draft.pc + 1
  first : w.draft.pc ≤ r.skip
  last : r.skip < r.stop.draft.pc
  skip : w₂.JumpsAt .jmp r.skip 0 w₂.draft.pc
  leave : w₂.draft.code[r.stop.draft.pc]? = some (.asbx .jmp 0 0)
  lowers : ∀ w' : Workspace, (∀ pc, w.draft.pc ≤ pc → pc < r.stop.draft.pc →
    w'.draft.code[pc]? = w₂.draft.code[pc]?) → r.Lowers arm w'

theorem passArm_laid (h : arm.Fits sites) :
    Ensures False (passArm arm) w fun leave w₂ =>
      ∃ r : ArmRun, r.stop.draft.pc = leave ∧ w.PassesArm arm (arm.breaks sites w) r w₂ := by
  refine (lowerArm_laid h).bind fun skip w₁ h₁ => ?_
  obtain ⟨r, rfl, hstart, rfl, hcarries, hfirst, hjump, hlowers⟩ := h₁
  have hlast : r.skip < r.stop.draft.pc := (Array.getElem?_eq_some_iff.mp hjump).1
  have hle := hcarries.pc
  refine (asbx_carries w.draft.pc arm.lastLine 0 (.inl rfl) zero_le_maxOffset (by omega)
    (Int.le_refl 0)).bind fun leave w₂ h₂ => ?_
  obtain ⟨hleave, hpc₂, hcode₂, -, hcarries₂⟩ := h₂
  have hto : w.Carries w.draft.pc (arm.breaks sites w) w₂ := by
    simpa using hcarries.trans hcarries₂
  rw [ensures_here_bind]
  refine (hto.aim (.inl rfl) ((hcarries₂.kept _ hlast).trans hjump) hfirst le_rfl
    (by omega) le_rfl).bind fun _ w₃ h₃ => ?_
  obtain ⟨haims, hcarries₃⟩ := h₃
  rw [ensures_pure]
  have hpc₃ := haims.pc
  refine ⟨r, hleave.symm, hstart, hcarries₃, by omega, hfirst, hlast, ?_, ?_, fun w' hw' => ?_⟩
  · rw [hpc₃]
    exact haims.jumpsAt
  · exact (haims.rest _ (by omega)).trans hcode₂
  · refine hlowers w' fun pc hge hlt hne => ?_
    rw [hw' pc hge hlt, haims.rest pc hne, hcarries₂.kept pc hlt]

/-! ## All arms -/

/-- The arms were lowered one after the other, each in the state that the one before it left,
and their jumps aimed: from each arm whose condition is false to the next or, from the last
one, to `exit`, and from the end of each arm but the last to `exit`. -/
inductive ArmsLaid (w' : Workspace) (exit : Nat) : List Arm → List ArmRun → Prop
  | last {arm : Arm} {r : ArmRun} (hlowers : r.Lowers arm w')
      (hskip : w'.JumpsAt .jmp r.skip 0 exit) (hstop : r.stop.draft.pc = exit) :
      ArmsLaid w' exit [arm] [r]
  | cons {arm : Arm} {arms : List Arm} {r next : ArmRun} {runs : List ArmRun}
      (hlowers : r.Lowers arm w') (hrun : passArm arm r.start = .ok r.stop.draft.pc next.start)
      (hskip : w'.JumpsAt .jmp r.skip 0 next.start.draft.pc)
      (hleave : w'.JumpsAt .jmp r.stop.draft.pc 0 exit)
      (hstart : next.start.draft.pc = r.stop.draft.pc + 1)
      (hrest : ArmsLaid w' exit arms (next :: runs)) :
      ArmsLaid w' exit (arm :: arms) (r :: next :: runs)

/-- Arms of which each fits; the places of the breaks in all of them. -/
inductive ArmsFit : List Arm → (Workspace → List Nat) → Prop
  | nil : ArmsFit [] fun _ => []
  | cons {arm : Arm} {arms : List Arm} {sites sites' : Workspace → List Nat} (h : arm.Fits sites)
      (hrest : ArmsFit arms sites') :
      ArmsFit (arm :: arms) fun w => arm.breaks sites w ++ sites' (stateAfter (passArm arm) w)

/-- Arms were lowered, and the jumps past the last of them still wait for a target. -/
structure Workspace.Arranges (w : Workspace) (arms : List Arm) (exits sites : List Nat)
    (w₁ : Workspace) : Prop where
  carries : w.Carries w.draft.pc sites w₁
  waiting : ∀ pc ∈ exits, w.draft.pc ≤ pc ∧ w₁.draft.code[pc]? = some (.asbx .jmp 0 0)
  laid : ∀ w' : Workspace,
    (∀ pc, w.draft.pc ≤ pc → pc < w₁.draft.pc → pc ∉ exits →
      w'.draft.code[pc]? = w₁.draft.code[pc]?) →
    (∀ pc ∈ exits, w'.JumpsAt .jmp pc 0 w₁.draft.pc) → arms ≠ [] →
    ∃ r runs, r.start = w ∧ ArmsLaid w' w₁.draft.pc arms (r :: runs)

/-- The last arm. -/
theorem Workspace.LowersArm.arranges {sites : List Nat} (h : w.LowersArm arm sites r w₁) :
    w.Arranges [arm] [r.skip] sites w₁ := by
  refine ⟨h.carries, fun pc hmem => ?_, fun w' hw' hexits _ => ⟨r, [], h.start, .last ?_ ?_ ?_⟩⟩
  · obtain rfl := List.mem_singleton.mp hmem
    exact ⟨h.first, h.jump⟩
  · exact h.lowers w' fun pc hge hlt hne => hw' pc hge hlt (by simpa using hne)
  · exact hexits _ List.mem_cons_self
  · rw [h.stop]

/-- One more arm in front of others. -/
theorem Workspace.PassesArm.arranges {exits sites sites' : List Nat}
    (h : w.PassesArm arm sites r w₂) (hrun : passArm arm w = .ok r.stop.draft.pc w₂)
    (hne : arms ≠ []) (hrest : w₂.Arranges arms exits sites' w₃) :
    w.Arranges (arm :: arms) (r.stop.draft.pc :: exits) (sites ++ sites') w₃ := by
  have hpc := h.pc
  have hfirst := h.first
  have hlast := h.last
  have hle₃ := hrest.carries.pc
  have hkept := hrest.carries.kept
  refine ⟨h.carries.trans (hrest.carries.mono (by omega)), fun pc hmem => ?_,
    fun w' hw' hexits _ => ?_⟩
  · rcases List.mem_cons.mp hmem with rfl | hmem
    · exact ⟨by omega, (hkept _ (by omega)).trans h.leave⟩
    · obtain ⟨hge, hcode⟩ := hrest.waiting pc hmem
      exact ⟨by omega, hcode⟩
  · -- the jumps that wait are this arm's last instruction and ones after it
    have hold : ∀ pc, w.draft.pc ≤ pc → pc < r.stop.draft.pc →
        w'.draft.code[pc]? = w₂.draft.code[pc]? := by
      intro pc hge hlt
      rw [← hkept pc (by omega)]
      refine hw' pc hge (by omega) fun hmem => ?_
      rcases List.mem_cons.mp hmem with rfl | hmem
      · omega
      · have hlater := (hrest.waiting pc hmem).1
        omega
    have hnew : ∀ pc, w₂.draft.pc ≤ pc → pc < w₃.draft.pc → pc ∉ exits →
        w'.draft.code[pc]? = w₃.draft.code[pc]? := by
      intro pc hge hlt hnot
      refine hw' pc (by omega) hlt fun hmem => ?_
      rcases List.mem_cons.mp hmem with rfl | hmem
      · omega
      · exact hnot hmem
    obtain ⟨next, runs, hnext, hlaid⟩ :=
      hrest.laid w' hnew (fun pc hmem => hexits pc (List.mem_cons_of_mem _ hmem)) hne
    obtain ⟨i, hi, hjump⟩ := h.skip
    refine ⟨r, next :: runs, h.start, .cons (h.lowers w' hold) ?_ ?_ ?_ ?_ hlaid⟩
    · rw [h.start, hnext, hrun]
    · rw [hnext]
      exact ⟨i, (hold _ hfirst hlast).trans hi, hjump⟩
    · exact hexits _ List.mem_cons_self
    · rw [hnext, hpc]

theorem lowerArms_laid (h : ArmsFit arms sites) :
    ∀ w : Workspace, Ensures False (lowerArms arms) w fun exits w₁ =>
      w.Arranges arms exits (sites w) w₁ := by
  induction h with
  | nil => exact fun w => ⟨.refl w _, nofun, fun _ _ _ hne => absurd rfl hne⟩
  | @cons arm arms sites sites' harm hrest ih =>
    intro w
    cases arms with
    | nil =>
      cases hrest
      refine (lowerArm_laid harm).bind fun skip w₁ h₁ => ?_
      obtain ⟨r, rfl, hlowers⟩ := h₁
      rw [ensures_pure]
      simp only [List.append_nil]
      exact hlowers.arranges
    | cons next arms =>
      rw [lowerArms_cons]
      refine ((passArm_laid harm).and (ensures_run _ w)).bind fun leave w₂ h₂ => ?_
      obtain ⟨⟨r, rfl, hpasses⟩, hrun⟩ := h₂
      refine (ih w₂).bind fun exits w₃ h₃ => ?_
      rw [ensures_pure]
      simp only [stateAfter_of_ok hrun]
      exact hpasses.arranges hrun (List.cons_ne_nil _ _) h₃

/-- Jumps that wait in the added code are aimed at its end. -/
theorem aimJumps_carries {sites : List Nat} : ∀ (exits : List Nat) {w₁ : Workspace},
    w.Carries w.draft.pc sites w₁ →
    (∀ pc ∈ exits, w.draft.pc ≤ pc ∧ ∃ m, w₁.draft.code[pc]? = some (.asbx .jmp 0 m)) →
    Ensures False (aimJumps w₁.draft.pc exits) w₁ fun _ w₂ =>
      w.Carries w.draft.pc sites w₂ ∧ w₂.draft.pc = w₁.draft.pc ∧
      (∀ pc ∉ exits, w₂.draft.code[pc]? = w₁.draft.code[pc]?) ∧
      ∀ pc ∈ exits, w₂.JumpsAt .jmp pc 0 w₁.draft.pc
  | [], w₁, h, _ => ⟨h, rfl, fun _ _ => rfl, nofun⟩
  | exit :: exits, w₁, h, hwait => by
      obtain ⟨hge, m, hcode⟩ := hwait exit List.mem_cons_self
      refine (h.aim (.inl rfl) hcode hge le_rfl h.pc le_rfl).bind
        fun _ w₂ h₂ => ?_
      obtain ⟨haims, hcarries⟩ := h₂
      rw [← haims.pc]
      refine (aimJumps_carries exits hcarries fun pc hmem => ?_).mono fun _ w₃ h₃ => ?_
      · obtain ⟨hge, m, hcode⟩ := hwait pc (List.mem_cons_of_mem _ hmem)
        refine ⟨hge, ?_⟩
        by_cases heq : pc = exit
        · exact ⟨_, heq ▸ haims.jump⟩
        · exact ⟨m, (haims.rest pc heq).trans hcode⟩
      · obtain ⟨hto, hpc, hrest, hjumps⟩ := h₃
        refine ⟨hto, hpc, fun pc hnot => ?_, fun pc hmem => ?_⟩
        · rw [hrest pc fun hmem => hnot (List.mem_cons_of_mem _ hmem)]
          exact haims.rest pc fun heq => hnot (heq ▸ List.mem_cons_self)
        · by_cases hin : pc ∈ exits
          · exact hjumps pc hin
          · obtain rfl : pc = exit := (List.mem_cons.mp hmem).resolve_right hin
            obtain ⟨i, hi, hjump⟩ := haims.jumpsAt
            rw [haims.pc]
            exact ⟨i, (hrest _ hin).trans hi, hjump⟩

theorem lowerIf_laid (h : ArmsFit arms sites) :
    Ensures False (lowerIf arms) w fun _ w' => w.Carries w.draft.pc (sites w) w' ∧
      (arms ≠ [] → ∃ r runs, r.start = w ∧ ArmsLaid w' w'.draft.pc arms (r :: runs)) := by
  refine (lowerArms_laid h w).bind fun exits w₁ h₁ => ?_
  rw [ensures_here_bind]
  refine (aimJumps_carries exits h₁.carries fun pc hmem => ?_).mono fun _ w₂ h₂ => ?_
  · obtain ⟨hge, hcode⟩ := h₁.waiting pc hmem
    exact ⟨hge, 0, hcode⟩
  · obtain ⟨hcarries, hpc, hrest, hjumps⟩ := h₂
    rw [hpc]
    exact ⟨hcarries, fun hne => h₁.laid w₂ (fun pc _ _ hnot => hrest pc hnot) hjumps hne⟩

end LuaLowering
