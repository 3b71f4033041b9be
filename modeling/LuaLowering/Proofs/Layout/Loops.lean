import LuaLowering.Proofs.Layout.Scope

/-!
# How loops are laid out

A loop is a body between a few instructions that lead into it, back to its start and past
its end. Where these stand and where they lead follows from the order in which they are
written, whatever the body is: all that is asked of the body is that its code is contained
and that its breaks are with the innermost loop when it has been lowered.

The state in which the body is lowered is the one that the first steps of the loop leave
behind. The places of the breaks are those that the body gives from there.
-/

namespace LuaLowering

open LowerM

variable {α β : Type} {w w₁ w₂ w' : Workspace} {lo : Nat} {sites : List Nat} {m n : Int}
  {op : Opcode} {pc a target exit : Nat} {cond : Source} {declared : List Nat} {body : LowerM Unit}
  {values : List Source} {top : Scope}

/-! ## Jumps -/

/-- An instruction with an offset stands at a position and leads to another. -/
def Workspace.JumpsAt (w : Workspace) (op : Opcode) (pc a target : Nat) : Prop :=
  ∃ i, w.draft.code[pc]? = some i ∧ i.opcode? = some op ∧ i.a = a ∧
    (pc : Int) + 1 + i.offset = target

theorem Workspace.jumpsAt_of_asbx (hcode : w.draft.code[pc]? = some (.asbx op a n))
    (hn : n.natAbs ≤ Instruction.maxOffset) (htarget : (pc : Int) + 1 + n = target) :
    w.JumpsAt op pc (a % 0x100) target :=
  ⟨_, hcode, Instruction.opcode?_asbx .., Instruction.a_asbx ..,
    by rw [Instruction.offset_asbx op a hn]; exact htarget⟩

/-- The operations that go on at the next instruction or where their offset leads. -/
def Opcode.IsJump (op : Opcode) : Prop := op = .jmp ∨ op = .forPrep ∨ op = .forLoop ∨ op = .tForLoop

theorem Opcode.IsJump.ways (h : op.IsJump) (a c : Nat) : ∀ way ∈ op.ways a c, way.1 ≠ .skip := by
  rcases h with rfl | rfl | rfl | rfl <;> simp

theorem zero_le_maxOffset : (0 : Int).natAbs ≤ Instruction.maxOffset := Nat.zero_le _

/-- A jump that does not lead forward is contained as soon as it is written. -/
theorem asbx_carries (lo line : Nat) (a : Nat) (hop : op.IsJump)
    (hn : n.natAbs ≤ Instruction.maxOffset) (hfrom : (lo : Int) ≤ w.draft.pc + 1 + n)
    (hto : n ≤ 0) :
    Ensures False (Emit.asbx line op a n) w fun pc w' =>
      pc = w.draft.pc ∧ w'.draft.pc = w.draft.pc + 1 ∧
      w'.draft.code[w.draft.pc]? = some (.asbx op a n) ∧ w'.used = w.used ∧ w.Carries lo [] w' := by
  refine ((asbx_writes line op a n).and ((Emit.asbx_neutral line op a n).vets w).ensures).mono ?_
  rintro pc w' ⟨⟨hwrites, hused, hpc⟩, halike, -⟩
  refine ⟨hpc, hwrites.pc, hwrites.code 0 _ rfl, hused, .of_contained ?_ halike.draft.scopes⟩
  exact hwrites.contained (Instruction.staysIn_asbx hop.ways hn (by omega) le_rfl hfrom
    (by omega))

theorem plain_carries (lo line : Nat) (op : Opcode) {c : Nat} (a b : Nat)
    (hways : ∀ a, op.ways a (c % 0x200) = [(.next, [])]) (hlo : lo ≤ w.draft.pc) :
    Ensures False (Emit.plain line op a b c) w fun _ w' =>
      w'.draft.pc = w.draft.pc + 1 ∧ w'.draft.code[w.draft.pc]? = some (.abc op a b c) ∧
      w.Carries lo [] w' := by
  have hneutral := ((Emit.plain_neutral line op a b c).vets w).ensures
  refine ((plain_writes line op a b c).and hneutral).mono ?_
  rintro _ w' ⟨⟨hwrites, -⟩, halike, -⟩
  have hnext : (Instruction.abc op a b c).Proceeds w.draft.pc (w.draft.pc + 1) := by
    refine Instruction.proceeds_next ?_ (Nat.lt_succ_self _)
    rw [Instruction.ways_eq (Instruction.opcode?_abc ..), Instruction.c_abc, hways]
  refine ⟨hwrites.pc, hwrites.code 0 _ rfl, .of_contained ?_ halike.draft.scopes⟩
  exact hwrites.contained (hnext.staysIn hlo)

theorem closeCaptured_carries (lo line : Nat) (hlo : lo ≤ w.draft.pc) :
    Ensures False (closeCaptured line) w fun _ w' =>
      w.Carries lo [] w' ∧ w'.draft.pc ≤ w.draft.pc + 1 := by
  refine closeLevel_ensures.bind fun level w₁ h => ?_
  subst h
  split
  · refine (asbx_carries lo line level (.inl rfl) zero_le_maxOffset (by omega)
      (Int.le_refl 0)).bind fun _ w₂ h => ?_
    exact ⟨h.2.2.2.2, Nat.le_of_eq h.2.1⟩
  · exact ⟨.refl _ lo, Nat.le_succ _⟩

theorem openScope_ensures (breakable : Bool) :
    Ensures False (openScope breakable) w fun _ w' =>
      w'.draft = { w.draft with scopes := .opened breakable :: w.draft.scopes } := rfl

/-- The innermost scope is a new one. -/
theorem openScope_enters {breakable : Bool} (hin : w.Contained lo w₁)
    (hscopes : w₁.draft.scopes = w.draft.scopes) :
    Ensures False (openScope breakable) w₁ fun _ w' =>
      w.Enters lo (.opened breakable) w' ∧ w'.draft.pc = w₁.draft.pc := by
  refine (openScope_ensures breakable).mono fun _ w' h => ⟨⟨?_, ?_, nofun⟩, by rw [h]; rfl⟩
  · refine hin.change (by rw [h]) (fun i v _ hv => by rw [h]; exact hv) (by rw [h]; rfl)
      fun pc => ?_
    rw [h]
    exact Or.inl rfl
  · rw [h]
    exact congrArg (Scope.opened breakable :: ·) hscopes

/-! ## Conditions -/

namespace Workspace

/-- A condition was evaluated and tested, and a jump written that is taken if it is false. -/
structure Tests (w : Workspace) (cond : Source) (u : Workspace) (o : Operand) (w' : Workspace) :
    Prop where
  finds : w.Finds cond .register u o
  pc : w'.draft.pc = u.draft.pc + 2
  kept : ∀ pc < u.draft.pc, w'.draft.code[pc]? = u.draft.code[pc]?
  test : w'.draft.code[u.draft.pc]? = some (.abc .test o.field 0 0)
  jump : w'.draft.code[u.draft.pc + 1]? = some (.asbx .jmp 0 0)
  straight : w.Straight w.used w'

end Workspace

theorem branchUnless_tests (hc : cond.Tidy) (line : Nat) :
    Ensures False (branchUnless cond line) w fun skip w' => ∃ u o, w.Tests cond u o w' ∧
      skip = u.draft.pc + 1 := by
  refine (setLine_writes line).bind fun _ w₁ h₁ => ?_
  rw [ensures_usedRegisters_bind]
  refine (operand_finds cond .register).bind fun o u hfinds => ?_
  have hu : w.Finds cond .register u o := h₁.1.finds h₁.2 hfinds
  refine (freeRegistersTo_writes _).bind fun _ w₂ h₂ => ?_
  refine (plain_writes line .test o.field 0 0).bind fun _ w₃ h₃ => ?_
  refine (jump_writes line 0 0).mono fun skip w₄ h₄ => ?_
  have hpc₂ : w₂.draft.pc = u.draft.pc := h₂.1.pc
  have hpc₃ : w₃.draft.pc = u.draft.pc + 1 := by rw [h₃.1.pc, hpc₂]; rfl
  have htest := Instruction.opcode?_abc .test o.field 0 0
  have hpair : u.Straight w.used w₄ := by
    refine (h₂.1.append (h₃.1.append h₄.1)).straight ⟨⟨?_, ?_⟩, ⟨?_, ?_⟩, trivial⟩
    · exact Instruction.worksFrom_of_silent htest rfl _ _
    · exact Instruction.proceeds_skip (by simp [Instruction.ways_eq htest])
        (Nat.lt_succ_self _)
    · exact Instruction.worksFrom_of_silent (Instruction.opcode?_asbx ..) rfl _ _
    · refine Instruction.proceeds_jump zero_le_maxOffset (Int.le_refl 0) ?_
      simp only [List.cons_append, List.nil_append, List.length_cons]
      omega
  refine ⟨u, o, ⟨hu, ?_, hpair.kept, ?_, ?_, ?_⟩, h₄.2.2.trans hpc₃⟩
  · rw [h₄.1.pc, hpc₃]
    rfl
  · rw [h₄.1.grows.code _ (by omega), ← hpc₂]
    exact h₃.1.code 0 _ rfl
  · rw [← hpc₃]
    exact h₄.1.code 0 _ rfl
  · exact (hu.straight hc le_rfl).1.trans hpair

/-- Testing a condition leaves the scopes as they are. -/
theorem branchUnless_scopes (hc : cond.Tidy) (line : Nat) :
    Ensures False (branchUnless cond line) w fun _ w' => w'.draft.scopes = w.draft.scopes :=
  ((branchUnless_neutral hc.vetted line).vets w).ensures.mono fun _ _ h => h.1.draft.scopes

/-! ## Aiming jumps -/

namespace Workspace

/-- The jump at a position was given a target, and no other instruction changed. -/
structure Aims (w : Workspace) (op : Opcode) (origin a target : Nat) (w' : Workspace) : Prop where
  pc : w'.draft.pc = w.draft.pc
  reach : (target - origin - 1 : Int).natAbs ≤ Instruction.maxOffset
  jump : w'.draft.code[origin]? = some (.asbx op a (target - origin - 1))
  rest : ∀ q, q ≠ origin → w'.draft.code[q]? = w.draft.code[q]?

theorem Aims.jumpsAt (h : w.Aims op pc a target w') :
    w'.JumpsAt op pc (a % 0x100) target := jumpsAt_of_asbx h.jump h.reach (by omega)

end Workspace

theorem aimJump_aims (hcode : w.draft.code[pc]? = some (.asbx op a m))
    (htarget : target ≤ w.draft.pc) :
    Ensures False (aimJump pc target) w fun _ w' => w.Aims op pc a target w' := by
  have hlt : pc < w.draft.pc := (Array.getElem?_eq_some_iff.mp hcode).1
  refine (aimJump_ensures htarget hcode).mono fun _ w' h => ?_
  obtain ⟨hreach, -, -, hdraft⟩ := h
  refine ⟨?_, hreach, ?_, fun q hq => ?_⟩ <;> rw [hdraft]
  · exact Array.size_setIfInBounds
  · exact Array.getElem?_setIfInBounds_self_of_lt hlt
  · exact Array.getElem?_setIfInBounds_ne (fun h => hq h.symm)

/-- A jump in the added code is aimed at a place in it. -/
theorem Workspace.Carries.aim (h : w.Carries lo sites w₁) (hop : op.IsJump)
    (hcode : w₁.draft.code[pc]? = some (.asbx op a m)) (hpc : w.draft.pc ≤ pc)
    (hlo : lo ≤ w.draft.pc) (hfrom : lo ≤ target) (hto : target ≤ w₁.draft.pc) :
    Ensures False (aimJump pc target) w₁ fun _ w₂ =>
      w₁.Aims op pc a target w₂ ∧ w.Carries lo sites w₂ := by
  have hlt : pc < w₁.draft.pc := (Array.getElem?_eq_some_iff.mp hcode).1
  refine ((aimJump_aims hcode hto).and (aimJump_ensures hto hcode)).mono fun _ w₂ h₂ => ?_
  obtain ⟨haims, hreach, -, -, hdraft⟩ := h₂
  refine ⟨haims, h.setCode hdraft hpc hlt ?_⟩
  exact Instruction.staysIn_asbx hop.ways hreach (by omega) (by omega) (by omega) (by omega)

/-! ## Breaks -/

/-- The jumps at the places listed lead to a position. -/
def Workspace.BreaksTo (w : Workspace) (sites : List Nat) (target : Nat) : Prop :=
  ∀ pc ∈ sites, ∃ a, w.JumpsAt .jmp pc a target

theorem Workspace.ExitsLoop.breaksTo {endPc : Nat} (h : w.ExitsLoop sites declared endPc w') :
    w'.BreaksTo sites w.draft.pc := by
  intro pc hpc
  obtain ⟨level, hreach, hjump⟩ := h.breaks pc hpc
  exact ⟨_, jumpsAt_of_asbx hjump hreach (by omega)⟩

/-- Aiming another jump leaves the breaks alone. -/
theorem Workspace.BreaksTo.aims (h : w.BreaksTo sites exit) (haims : w.Aims op pc a target w')
    (hpc : pc ∉ sites) : w'.BreaksTo sites exit := by
  intro q hq
  obtain ⟨b, i, hi, hjump⟩ := h q hq
  exact ⟨b, i, (haims.rest q fun heq => hpc (heq ▸ hq)).trans hi, hjump⟩

/-- The breaks of a body are jumps of the body. -/
theorem Workspace.Carries.not_mem (h : w.Carries lo sites w₁)
    (hpc : pc < w.draft.pc ∨ w₁.draft.pc ≤ pc) : pc ∉ sites := by
  intro hmem
  have hin := h.within pc hmem
  omega

/-- A body whose code is contained and whose breaks are with the innermost loop. -/
def CarriesFrom (body : LowerM Unit) (sites : Workspace → List Nat) : Prop :=
  ∀ w : Workspace, Ensures False body w fun _ w' => w.Carries w.draft.pc (sites w) w'

/-! ## Loops with a condition -/

/-- An instruction that goes on at the next one only if a condition is false. -/
def Workspace.TestsAt (w : Workspace) (pc : Nat) : Prop :=
  ∃ i, w.draft.code[pc]? = some i ∧ i.opcode? = some .test ∧ i.c = 0

theorem Workspace.testsAt_of_abc {r : Nat} (h : w.draft.code[pc]? = some (.abc .test r 0 0)) :
    w.TestsAt pc := ⟨_, h, Instruction.opcode?_abc .., by rw [Instruction.c_abc]⟩

theorem offsetFromHere_ensures (target : Nat) (htarget : target ≤ w.draft.pc) :
    Ensures False (offsetFromHere target) w fun offset w' =>
      w' = w ∧ offset = target - w.draft.pc - 1 ∧ offset.natAbs ≤ Instruction.maxOffset := by
  rw [offsetFromHere, ensures_here_bind]
  refine (offsetBetween_ensures _ _).mono fun offset w' h => ⟨h.1, ?_, h.2.2⟩
  rw [h.2.1, Draft.offset_of_le le_rfl htarget]

/-- How `while` is laid out; `start` is the state in which its body is lowered. -/
structure WhileSkeleton (w start : Workspace) (sites : List Nat) (w' : Workspace) : Prop where
  body : start.draft.pc < w'.draft.pc
  leave : ∃ test, test + 2 = start.draft.pc ∧ w'.TestsAt test ∧
    w'.JumpsAt .jmp (test + 1) 0 w'.draft.pc
  back : w'.JumpsAt .jmp (w'.draft.pc - 1) 0 w.draft.pc
  breaks : w'.BreaksTo sites w'.draft.pc

theorem lowerWhile_laid {sites : Workspace → List Nat} (hc : cond.Tidy)
    (hb : CarriesFrom body sites) (line lastLine : Nat) :
    Ensures False (lowerWhile cond body line lastLine) w fun _ w' =>
      w.Carries w.draft.pc [] w' ∧
        ∀ start, start = stateAfter (do let _ ← branchUnless cond line; openScope true) w →
          WhileSkeleton w start (sites start) w' := by
  rw [lowerWhile, ensures_here_bind]
  refine (((branchUnless_tests hc line).and (branchUnless_scopes hc line)).and
    (ensures_run _ w)).bind fun leave w₁ h₁ => ?_
  obtain ⟨⟨⟨u, o, htests, rfl⟩, hscopes⟩, hrun₁⟩ := h₁
  have hpc₁ := htests.pc
  refine ((openScope_enters (htests.straight.contained le_rfl) hscopes).and
    (ensures_run _ w₁)).bind fun _ w₂ h₂ => ?_
  obtain ⟨⟨hopen, hpc₂⟩, hrun₂⟩ := h₂
  have hstart : stateAfter (do let _ ← branchUnless cond line; openScope true) w = w₂ :=
    stateAfter_of_ok ((bind_of_ok hrun₁).trans hrun₂)
  have hle₂ : w.draft.pc ≤ w₂.draft.pc := hopen.pc
  refine (hb w₂).bind fun _ w₃ h₃ => ?_
  have hbody := h₃.mono hle₂
  have hle₃ := h₃.pc
  refine (closeCaptured_carries w.draft.pc lastLine (by omega)).bind fun _ w₄ h₄ => ?_
  replace h₄ := h₄.1
  have hle₄ := h₄.pc
  refine (offsetFromHere_ensures w.draft.pc (by omega)).bind fun back w₅ h => ?_
  obtain ⟨rfl, rfl, hreach⟩ := h
  refine (asbx_carries w.draft.pc lastLine 0 (.inl rfl) hreach (by omega)
    (by omega)).bind fun _ w₆ h₆ => ?_
  obtain ⟨-, hpc₆, hback, -, h₆⟩ := h₆
  have hall : w₂.Carries w.draft.pc (sites w₂) w₆ := by
    simpa using (hbody.trans h₄).trans h₆
  rw [ensures_here_bind]
  refine (closeScope_exits hopen hall rfl le_rfl _).bind fun _ w₇ h₇ => ?_
  obtain ⟨hexits, hcarries⟩ := h₇
  have hpc₇ := hexits.pc
  rw [ensures_here_bind]
  have hkept : ∀ pc < w₂.draft.pc, w₇.draft.code[pc]? = w₁.draft.code[pc]? := by
    intro pc hpc
    rw [hexits.rest pc (h₃.not_mem (Or.inl hpc)), hall.kept pc hpc]
    exact (openScope_ensures true).of_ok hrun₂ ▸ rfl
  have hleave : w₇.draft.code[u.draft.pc + 1]? = some (.asbx .jmp 0 0) :=
    (hkept _ (by omega)).trans htests.jump
  have hle₁ : w.draft.pc ≤ u.draft.pc := (htests.finds.straight hc le_rfl).1.pc
  refine (hcarries.aim (.inl rfl) hleave (by omega) le_rfl (by omega)
    le_rfl).mono fun _ w₈ h₈ => ?_
  obtain ⟨haims, hcarries⟩ := h₈
  have hpc₈ := haims.pc
  refine ⟨hcarries, fun start hs => ?_⟩
  obtain rfl : start = w₂ := hs.trans hstart
  refine ⟨by omega, ⟨u.draft.pc, by omega, ?_, ?_⟩, ?_, ?_⟩
  · refine Workspace.testsAt_of_abc (r := o.field) ?_
    rw [haims.rest _ (by omega), hkept _ (by omega)]
    exact htests.test
  · rw [hpc₈]
    exact haims.jumpsAt
  · have hlast : w₈.draft.pc - 1 = w₅.draft.pc := by omega
    rw [hlast]
    refine Workspace.jumpsAt_of_asbx (a := 0) ?_ hreach (by omega)
    rw [haims.rest _ (by omega), hexits.rest _ (h₃.not_mem (Or.inr hle₄))]
    exact hback
  · have hbreaks := hexits.breaksTo.aims haims (h₃.not_mem (Or.inl (by omega)))
    rwa [← hpc₇, ← hpc₈] at hbreaks

/-- How `repeat` is laid out. Only the jump that closes captured locals may stand behind the
test. -/
structure RepeatSkeleton (w start : Workspace) (sites : List Nat) (w' : Workspace) : Prop where
  back : ∃ test level, start.draft.pc ≤ test ∧ w'.TestsAt test ∧
    w'.JumpsAt .jmp (test + 1) level w.draft.pc ∧
    test + 2 ≤ w'.draft.pc ∧ w'.draft.pc ≤ test + 3
  breaks : w'.BreaksTo sites w'.draft.pc

theorem lowerRepeat_laid {sites : Workspace → List Nat} (hc : cond.Tidy)
    (hb : CarriesFrom body sites) (line : Nat) :
    Ensures False (lowerRepeat body cond line) w fun _ w' =>
      w.Carries w.draft.pc [] w' ∧ ∀ start, start = stateAfter (openScope true) w →
        RepeatSkeleton w start (sites start) w' := by
  refine ((openScope_enters (.refl w w.draft.pc) rfl).and (ensures_run _ w)).bind fun _ w₁ h₁ => ?_
  obtain ⟨⟨hopen, hpc₁⟩, hrun⟩ := h₁
  rw [ensures_here_bind]
  refine (hb w₁).bind fun _ w₂ h₂ => ?_
  have hbody : w₁.Carries w.draft.pc (sites w₁) w₂ := h₂.mono (Nat.le_of_eq hpc₁.symm)
  have hle₂ := h₂.pc
  refine ((setLine_writes line).and ((setLine_neutral line).vets w₂).ensures).bind fun _ w₃ h₃ => ?_
  rw [ensures_usedRegisters_bind]
  refine ((operand_straight hc .register le_rfl).and
    ((operand_quiet hc.vetted _).vets w₃).ensures).bind fun o w₄ h₄ => ?_
  refine ((freeRegistersTo_writes _).and (freeRegistersTo_vets _ w₄).ensures).bind fun _ w₅ h₅ => ?_
  have hcond : w₂.Contained w.draft.pc w₅ := by
    have hstraight := (h₃.1.1.straight_nil w₃.used).trans
      (h₄.1.1.trans (h₅.1.1.straight_nil w₃.used))
    exact hstraight.contained (by omega)
  have hcondScopes : w₅.draft.scopes = w₂.draft.scopes := by
    rw [h₅.2.1.draft.scopes, h₄.2.draft.scopes, h₃.2.1.draft.scopes]
  have hle₅ := hcond.pc
  refine ((plain_writes line .test o.field 0 0).and
    ((Emit.plain_neutral ..).vets w₅).ensures).bind fun _ w₆ h₆ => ?_
  have hpc₆ : w₆.draft.pc = w₅.draft.pc + 1 := h₆.1.1.pc
  refine closeLevel_ensures.bind fun level w₇ h => ?_
  subst h
  refine (offsetFromHere_ensures w₁.draft.pc (by omega)).bind fun back w₇ h => ?_
  obtain ⟨rfl, rfl, hreach⟩ := h
  refine ((jump_writes line level _).and ((Emit.asbx_neutral ..).vets w₇).ensures).bind
    fun _ w₈ h₈ => ?_
  have hpair := h₆.1.1.append h₈.1.1
  have hpc₈ : w₈.draft.pc = w₅.draft.pc + 2 := hpair.pc
  have htest : w₅.Contained w.draft.pc w₈ := by
    refine hpair.contained_pair ?_ ?_
    · have hop := Instruction.opcode?_abc .test o.field 0 0
      refine (Instruction.proceeds_skip ?_ (Nat.lt_succ_self _)).staysIn (by omega)
      simp [Instruction.ways_eq hop]
    · exact Instruction.staysIn_asbx (Opcode.IsJump.ways (.inl rfl)) hreach (by omega) (by omega)
        (by omega) (by omega)
  have hscopes₈ : w₈.draft.scopes = w₅.draft.scopes := by
    rw [h₈.2.1.draft.scopes, h₆.2.1.draft.scopes]
  refine (closeCaptured_carries w.draft.pc line (by omega)).bind fun _ w₉ h₉ => ?_
  obtain ⟨h₉, hpc₉⟩ := h₉
  have hle₉ := h₉.pc
  have hall : w₁.Carries w.draft.pc (sites w₁) w₉ := by
    have hto := (hbody.trans_contained hcond hcondScopes).trans_contained htest hscopes₈
    simpa using hto.trans h₉
  rw [ensures_here_bind]
  refine (closeScope_exits hopen hall rfl le_rfl _).mono fun _ w₁₀ h₁₀ => ?_
  obtain ⟨hexits, hcarries⟩ := h₁₀
  have hpc₁₀ := hexits.pc
  refine ⟨hcarries, fun start hs => ?_⟩
  obtain rfl : start = w₁ := hs.trans (stateAfter_of_ok hrun)
  refine ⟨⟨w₅.draft.pc, level % 0x100, by omega, ?_, ?_, by omega, by omega⟩,
    hpc₁₀ ▸ hexits.breaksTo⟩
  · refine Workspace.testsAt_of_abc (r := o.field) ?_
    rw [hexits.rest _ (h₂.not_mem (Or.inr hle₅)), h₉.kept _ (by omega)]
    exact hpair.code 0 _ rfl
  · rw [← hpc₁]
    refine Workspace.jumpsAt_of_asbx (a := level) ?_ hreach (by omega)
    rw [hexits.rest _ (h₂.not_mem (Or.inr (by omega))), h₉.kept _ (by omega)]
    exact hpair.code 1 _ rfl

/-! ## The locals of a loop -/

namespace Draft.HasLocal

variable {d : Draft} {i slot startPc endPc : Nat} {x : String}

theorem appends (h : w.draft.HasLocal i x slot startPc endPc) (happends : w.Appends w') :
    w'.draft.HasLocal i x slot startPc endPc := by
  obtain ⟨v, hv, hname, hslot, hstart, hend⟩ := h.entry
  obtain ⟨b, hb⟩ := happends.locals i v hv
  exact ⟨_, hb, hname, hslot, hstart, hend⟩

/-- The locals of a scope end where it is left, those of a loop's state once its last
instructions are done. -/
theorem exits (h : w.draft.HasLocal i x slot startPc endPc)
    (hexits : w.ExitsLoop sites declared exit w') (hi : i ∈ declared) (hle : startPc ≤ exit) :
    w'.draft.HasLocal i x slot startPc exit := by
  obtain ⟨v, hv, hname, hslot, hstart, -⟩ := h.entry
  refine ⟨_, hexits.ended i hi v hv, hname, hslot, hstart, ?_⟩
  show max exit v.startPc = exit
  omega

end Draft.HasLocal

theorem prolongLocals_ensures (first past delta : Nat) :
    Ensures False (prolongLocals first past delta) w fun _ w' =>
      (∃ locals, w'.draft = { w.draft with locals }) ∧
      ∀ (i : Nat) (v : Local), w.draft.locals[i]? = some v → w'.draft.locals[i]? =
        some (if first ≤ i ∧ i < past then { v with endPc := v.endPc + delta } else v) := by
  rw [prolongLocals, ensures_declaredCount_bind]
  split
  · next hin =>
    refine ⟨⟨_, rfl⟩, fun i v hv => ?_⟩
    refine (w.draft.getElem?_prolongLocals first (past - first) delta i).trans ?_
    rw [hv, Option.map_some, show first + (past - first) = past by omega]
  · exact ensures_misuse.mpr not_false

theorem Workspace.Alike.size_eq (h : w.Alike w') : w'.draft.locals.size = w.draft.locals.size := by
  have hsome : ∀ i : Nat, w'.draft.locals[i]?.isSome = w.draft.locals[i]?.isSome := by
    intro i
    have hdeclared := congrArg Option.isSome (h.draft.declared i)
    simpa [Draft.declarationAt?] using hdeclared
  refine Nat.le_antisymm ?_ ?_ <;> by_contra hlt
  · have hi := hsome w.draft.locals.size
    rw [Array.getElem?_eq_getElem (Nat.not_le.mp hlt), Array.getElem?_eq_none le_rfl] at hi
    cases hi
  · have hi := hsome w'.draft.locals.size
    rw [Array.getElem?_eq_getElem (Nat.not_le.mp hlt), Array.getElem?_eq_none le_rfl] at hi
    cases hi

/-- The values of declared locals are loaded first, and the registers they were in are those
of the locals. -/
theorem lowerDeclare_introduces (hv : ∀ s ∈ values, s.Tidy) (names : List String) (line : Nat) :
    Ensures False (lowerDeclare names values line) w fun _ w' => ∃ u : Workspace,
      w.Straight w.used u ∧ u.draft.scopes = w.draft.scopes ∧
      u.draft.locals.size = w.draft.locals.size ∧ u.used = w.used ∧
      u.Introduces u.draft.pc names w' := by
  refine ((setLine_writes line).and ((setLine_neutral line).vets w).ensures).bind fun _ w₁ h₁ => ?_
  rw [ensures_usedRegisters_bind]
  have hvetted : ∀ s ∈ values, s.Vetted := fun s hs => (hv s hs).vetted
  refine ((loadAdjusted_straight hv _ line (Nat.le_refl w₁.used)).and
    ((loadAdjusted_quiet hvetted _ line).vets w₁).ensures).bind fun _ w₂ h₂ => ?_
  refine ((freeRegistersTo_writes _).and (freeRegistersTo_vets _ w₂).ensures).bind fun _ w₃ h₃ => ?_
  rw [ensures_here_bind]
  refine (declareLocals_introduces w₃.draft.pc names w₃).mono fun _ w₄ h₄ => ?_
  have halike : w.Alike w₃ := h₁.2.1.trans (h₂.2.trans h₃.2.1)
  have hused : w₁.used = w.used := h₁.1.2
  refine ⟨w₃, ?_, halike.draft.scopes, halike.size_eq, h₃.1.2.1.trans hused, h₄⟩
  rw [← hused]
  exact (h₁.1.1.straight_nil _).trans (h₂.1.trans (h₃.1.1.straight_nil _))

/-- The scope of a `for` was entered: the hidden locals are in the next registers, and behind
them are the variables, which begin one instruction later. -/
structure Workspace.EntersFor (w : Workspace) (state names : List String) (top : Scope)
    (w' : Workspace) : Prop extends Enters w w.draft.pc top w' where
  breaks : top.breaks = some []
  declared : top.locals = (List.range' w.draft.locals.size (state.length + names.length)).reverse
  used : w'.used = w.used + state.length + names.length
  roomState : state ≠ [] → w.used + state.length ≤ w.draft.registers.limit
  roomNames : names ≠ [] → w'.used ≤ w.draft.registers.limit
  hidden : ∀ (k : Nat) (x : String), state[k]? = some x →
    w'.draft.HasLocal (w.draft.locals.size + k) x (w.used + k) w'.draft.pc w'.draft.pc
  named : ∀ (k : Nat) (x : String), names[k]? = some x →
    w'.draft.HasLocal (w.draft.locals.size + state.length + k) x (w.used + state.length + k)
      (w'.draft.pc + 1) (w'.draft.pc + 1)

theorem enterFor_enters (hv : ∀ s ∈ values, s.Tidy) (state names : List String) (line : Nat) :
    Ensures False (enterFor state values names line) w fun hidden w' =>
      hidden = w.draft.locals.size ∧ ∃ top, w.EntersFor state names top w' := by
  refine ((setLine_writes line).and ((setLine_neutral line).vets w).ensures).bind fun _ w₁ h₁ => ?_
  have hline : w.Contained w.draft.pc w₁ :=
    (h₁.1.1.straight_nil w.used).contained le_rfl
  refine ((openScope_enters hline h₁.2.1.draft.scopes).and (openScope_ensures true)).bind
    fun _ w₂ h₂ => ?_
  obtain ⟨⟨hopen, hpc₂⟩, hdraft₂⟩ := h₂
  have hused₂ : w₂.used = w.used := by
    rw [Workspace.used, hdraft₂]
    exact h₁.1.2
  have hsize₂ : w₂.draft.locals.size = w.draft.locals.size := by
    rw [hdraft₂]
    exact h₁.2.1.size_eq
  rw [ensures_declaredCount_bind]
  refine (lowerDeclare_introduces hv state line).bind fun _ w₃ h₃ => ?_
  obtain ⟨u, hstraight, hscopesU, hsizeU, husedU, h₃⟩ := h₃
  rw [ensures_here_bind]
  refine (declareLocals_introduces (w₃.draft.pc + 1) names w₃).bind fun _ w₄ h₄ => ?_
  rw [ensures_pure]
  have hsize₃ : w₃.draft.locals.size = w.draft.locals.size + state.length := by
    rw [h₃.size, hsizeU, hsize₂]
  have hused₃ : w₃.used = w.used + state.length := by rw [h₃.used, husedU, hused₂]
  have hpc₃ := h₃.pc
  have hpc₄ := h₄.pc
  have hle₂ : w.draft.pc ≤ w₂.draft.pc := hopen.pc
  have hin : w.Contained w.draft.pc w₄ := by
    refine hopen.toContained.trans ((hstraight.contained hle₂).trans ?_)
    exact (Workspace.Contained.of_pc_eq h₃.appends hpc₃ _).trans (.of_pc_eq h₄.appends hpc₄ _)
  have hlimit : u.draft.registers.limit = w.draft.registers.limit :=
    hstraight.limit.trans hopen.limit
  have hscopes : w₄.draft.scopes = { Scope.opened true with locals :=
      (List.range' w.draft.locals.size (state.length + names.length)).reverse } ::
        w.draft.scopes := by
    rw [h₄.scopes, h₃.scopes, Scope.addLocals_addLocals, hscopesU, hopen.scopes, hsize₃, hsizeU,
      hsize₂, ← List.reverse_append, List.range'_append_1, Scope.addLocals]
    simp [Scope.opened]
  refine ⟨hsize₂, _, ⟨hin, hscopes, fun i hi => ?_⟩, rfl, rfl, ?_, ?_, ?_, ?_, ?_⟩
  · exact (List.mem_range'_1.mp (List.mem_reverse.mp hi)).1
  · rw [h₄.used, hused₃]
  · intro hne
    have hroom := h₃.room hne
    omega
  · intro hne
    have hroom := h₄.room hne
    rwa [h₃.limit, hlimit] at hroom
  · intro k x hk
    have hnamed := (h₃.named k x hk).appends h₄.appends
    rwa [hsizeU, hsize₂, husedU, hused₂, ← hpc₃, ← hpc₄] at hnamed
  · intro k x hk
    have hnamed := h₄.named k x hk
    rwa [hsize₃, hused₃, ← hpc₄] at hnamed

/-- The scope of a `for` was left, whose last `n` instructions step the loop. -/
structure Workspace.ExitsFor (w : Workspace) (sites declared : List Nat) (hidden n : Nat)
    (w' : Workspace) : Prop where
  pc : w'.draft.pc = w.draft.pc
  rest : ∀ pc ∉ sites, w'.draft.code[pc]? = w.draft.code[pc]?
  breaks : w'.BreaksTo sites w.draft.pc
  ended : ∀ (i : Nat) (x : String) (slot startPc endPc : Nat), i ∈ declared →
    startPc + n ≤ w.draft.pc → w.draft.HasLocal i x slot startPc endPc →
    w'.draft.HasLocal i x slot startPc
      (if hidden ≤ i ∧ i < hidden + 3 then w.draft.pc else w.draft.pc - n)

theorem leaveFor_exits {hidden n : Nat} (hopen : w.Enters lo top w₁)
    (hbreaks : top.breaks = some []) (hbody : w₁.Carries lo sites w₂) (hlo : lo ≤ w.draft.pc)
    (hhidden : w.draft.locals.size ≤ hidden) :
    Ensures False (leaveFor hidden n) w₂ fun _ w' =>
      w₂.ExitsFor sites top.locals hidden n w' ∧ w.Carries lo [] w' := by
  rw [leaveFor, ensures_here_bind, before]
  split
  · next hn =>
    rw [ensures_pure_bind]
    refine (closeScope_exits hopen hbody hbreaks hlo _).bind fun _ w₃ h₃ => ?_
    obtain ⟨hexits, hcarries⟩ := h₃
    refine (prolongLocals_ensures hidden (hidden + 3) n).mono fun _ w₄ h₄ => ?_
    obtain ⟨⟨locals, hdraft⟩, hlocals⟩ := h₄
    have hcode : w₄.draft.code = w₃.draft.code := by rw [hdraft]
    have hpc : w₄.draft.pc = w₃.draft.pc := congrArg Array.size hcode
    refine ⟨⟨hpc.trans hexits.pc, fun pc hpc => ?_, fun pc hpc => ?_, ?_⟩, ?_⟩
    · rw [hcode]
      exact hexits.rest pc hpc
    · obtain ⟨a, i, hi, hjump⟩ := hexits.breaksTo pc hpc
      exact ⟨a, i, by rw [hcode]; exact hi, hjump⟩
    · intro i x slot startPc endPc hi hle hlocal
      obtain ⟨v, hv, hname, hslot, hstart, hend⟩ := (hlocal.exits hexits hi (by omega)).entry
      refine ⟨_, hlocals i v hv, ?_⟩
      split
      · exact ⟨hname, hslot, hstart, by show v.endPc + n = _; omega⟩
      · exact ⟨hname, hslot, hstart, hend⟩
    · refine ⟨hcarries.toContained.change (by rw [hdraft]) (fun i v hi hv => ?_) hpc fun pc => ?_,
        nofun, ?_⟩
      · rw [hlocals i v hv, if_neg (by omega)]
      · rw [hcode]
        exact Or.inl rfl
      · rw [hdraft]
        exact hcarries.scopes
  · exact (ensures_misuse.mpr not_false).bind (P := fun _ _ => False) fun _ _ h => h.elim

/-! ## Loops over values -/

/-- What the two kinds of `for` have in common. The instruction at `entry` leads into the loop,
and the last `n` step it; `start` is the state in which the body is lowered. -/
structure ForSkeleton (w : Workspace) (state names : List String) (entry n : Nat)
    (start : Workspace) (sites : List Nat) (w' : Workspace) : Prop where
  start : start.draft.pc = entry + 1
  body : entry + 1 + n ≤ w'.draft.pc
  hidden : ∀ (k : Nat) (x : String), state[k]? = some x →
    w'.draft.HasLocal (w.draft.locals.size + k) x (w.used + k) entry w'.draft.pc
  named : ∀ (k : Nat) (x : String), names[k]? = some x →
    w'.draft.HasLocal (w.draft.locals.size + 3 + k) x (w.used + 3 + k) (entry + 1)
      (w'.draft.pc - n)
  breaks : w'.BreaksTo sites w'.draft.pc

theorem Workspace.EntersFor.skeleton {state names : List String} {n : Nat} {start : Workspace}
    (hopen : w.EntersFor state names top w₁) (hstate : state.length = 3) (hbody : w₁.Appends w₂)
    (hstart : start.draft.pc = w₁.draft.pc + 1) (hle : w₁.draft.pc + 1 + n ≤ w₂.draft.pc)
    (hexits : w₂.ExitsFor sites top.locals w.draft.locals.size n w') :
    ForSkeleton w state names w₁.draft.pc n start sites w' := by
  have hpc := hexits.pc
  have hmem : ∀ k, k < state.length + names.length → w.draft.locals.size + k ∈ top.locals := by
    intro k hk
    rw [hopen.declared, List.mem_reverse, List.mem_range'_1]
    omega
  refine ⟨hstart, by omega, fun k x hk => ?_, fun k x hk => ?_, hpc ▸ hexits.breaks⟩
  · have hlt := (List.getElem?_eq_some_iff.mp hk).1
    have hlocal := (hopen.hidden k x hk).appends hbody
    have hended := hexits.ended _ _ _ _ _ (hmem k (by omega)) (by omega) hlocal
    rwa [if_pos (by omega), ← hpc] at hended
  · have hlt := (List.getElem?_eq_some_iff.mp hk).1
    have hlocal := (hopen.named k x hk).appends hbody
    rw [hstate, Nat.add_assoc _ 3 k] at hlocal
    have hended := hexits.ended _ _ _ _ _ (hmem (3 + k) (by omega)) (by omega) hlocal
    rw [if_neg (by omega), ← hpc] at hended
    rwa [Nat.add_assoc _ 3 k]

/-- How a numeric `for` is laid out. -/
structure NumericSkeleton (w : Workspace) (var : String) (start : Workspace) (sites : List Nat)
    (w' : Workspace) : Prop where
  entry : ∃ entry, ForSkeleton w numericState [var] entry 1 start sites w' ∧
    w'.JumpsAt .forPrep entry w.used (w'.draft.pc - 1) ∧
    w'.JumpsAt .forLoop (w'.draft.pc - 1) w.used (entry + 1)

/-- The first steps of a numeric `for`, up to its body. -/
def enterNumericFor (var : String) (init limit step : Source) (forLine doLine : Nat) :
    LowerM Unit := do
  let _ ← enterFor numericState [init, limit, step] [var] forLine
  let base ← before (← usedRegisters) 4
  let _ ← Emit.forPrep doLine base 0

theorem lowerNumericFor_laid {init limit step : Source} {sites : Workspace → List Nat}
    (hi : init.Tidy) (hl : limit.Tidy) (hs : step.Tidy) (hb : CarriesFrom body sites) (var : String)
    (forLine doLine lastLine : Nat) :
    Ensures False (lowerNumericFor var init limit step body forLine doLine lastLine) w fun _ w' =>
      w.Carries w.draft.pc [] w' ∧ (w.draft.registers.limit ≤ 0xff →
        ∀ start, start = stateAfter (enterNumericFor var init limit step forLine doLine) w →
          NumericSkeleton w var start (sites start) w') := by
  have hv : ∀ s ∈ [init, limit, step], s.Tidy := by simp [hi, hl, hs]
  refine ((enterFor_enters hv numericState [var] forLine).and (ensures_run _ w)).bind
    fun hidden w₁ h₁ => ?_
  obtain ⟨⟨rfl, top, hopen⟩, hrun₁⟩ := h₁
  have hused : w₁.used = w.used + 4 := hopen.used
  rw [ensures_usedRegisters_bind, before, if_pos (by omega), ensures_pure_bind]
  have hbase : w₁.used - 4 = w.used := by omega
  rw [hbase]
  have hle₁ : w.draft.pc ≤ w₁.draft.pc := hopen.pc
  refine ((asbx_carries w.draft.pc doLine w.used (.inr (.inl rfl)) zero_le_maxOffset
    (by omega) (Int.le_refl 0)).and (ensures_run _ w₁)).bind fun prep w₂ h₂ => ?_
  obtain ⟨⟨rfl, hpc₂, hprep, -, h₂⟩, hrun₂⟩ := h₂
  refine (hb w₂).bind fun _ w₃ h₃ => ?_
  have hle₃ := h₃.pc
  refine (closeCaptured_carries w.draft.pc lastLine (by omega)).bind fun _ w₄ h₄ => ?_
  replace h₄ := h₄.1
  have hle₄ := h₄.pc
  refine (asbx_carries w.draft.pc forLine w.used (.inr (.inr (.inl rfl))) zero_le_maxOffset
    (by omega) (Int.le_refl 0)).bind fun step w₅ h₅ => ?_
  obtain ⟨rfl, hpc₅, hloop, -, h₅⟩ := h₅
  have hfrom₂ : w₂.Carries w.draft.pc (sites w₂) w₅ := by
    simpa using ((h₃.mono (by omega)).trans h₄).trans h₅
  have hall : w₁.Carries w.draft.pc (sites w₂) w₅ := by simpa using h₂.trans hfrom₂
  refine (hall.aim (.inr (.inl rfl)) ((hfrom₂.kept _ (by omega)).trans hprep) le_rfl hle₁
    (by omega) (by omega)).bind fun _ w₆ h₆ => ?_
  obtain ⟨haims₆, hall⟩ := h₆
  have hpc₆ := haims₆.pc
  refine (hall.aim (.inr (.inr (.inl rfl))) ((haims₆.rest _ (by omega)).trans hloop) (by omega) hle₁
    (by omega) (by omega)).bind fun _ w₇ h₇ => ?_
  obtain ⟨haims₇, hall⟩ := h₇
  have hpc₇ := haims₇.pc
  refine (leaveFor_exits hopen.toEnters hopen.breaks hall le_rfl le_rfl).mono
    fun _ w₈ h₈ => ?_
  obtain ⟨hexits, hcarries⟩ := h₈
  have hpc₈ := hexits.pc
  refine ⟨hcarries, fun hlimit start hstart => ?_⟩
  have hentered : stateAfter (enterNumericFor var init limit step forLine doLine) w = w₂ := by
    refine stateAfter_of_ok (x := ()) ((bind_of_ok hrun₁).trans ?_)
    have hbefore : before w₁.used 4 w₁ = .ok w.used w₁ := by
      rw [before, if_pos (by omega), hbase]
      rfl
    exact (bind_of_ok hbefore).trans (bind_of_ok hrun₂)
  obtain rfl : start = w₂ := hstart.trans hentered
  have hroom : w.used + 4 ≤ w.draft.registers.limit := hused ▸ hopen.roomNames (by simp)
  have hA : w.used % 0x100 = w.used := Nat.mod_eq_of_lt (by omega)
  have hlast : w₈.draft.pc - 1 = w₄.draft.pc := by omega
  refine ⟨w₁.draft.pc, hopen.skeleton rfl hall.toAppends hpc₂ (by omega) hexits, ?_, ?_⟩ <;>
    rw [hlast]
  · rw [← hA]
    refine Workspace.jumpsAt_of_asbx ?_ haims₆.reach (by omega)
    rw [hexits.rest _ (h₃.not_mem (Or.inl (by omega))), haims₇.rest _ (by omega)]
    exact haims₆.jump
  · rw [← hA]
    refine Workspace.jumpsAt_of_asbx ?_ haims₇.reach (by omega)
    rw [hexits.rest _ (h₃.not_mem (Or.inr hle₄))]
    exact haims₇.jump

/-- How a generic `for` is laid out. -/
structure GenericSkeleton (w : Workspace) (names : List String) (start : Workspace)
    (sites : List Nat) (w' : Workspace) : Prop where
  entry : ∃ entry, ForSkeleton w genericState names entry 2 start sites w' ∧
    w'.JumpsAt .jmp entry 0 (w'.draft.pc - 2) ∧
    w'.JumpsAt .tForLoop (w'.draft.pc - 1) (w.used + 2) (entry + 1)
  call : ∃ i, w'.draft.code[w'.draft.pc - 2]? = some i ∧ i.opcode? = some .tForCall ∧
    i.a = w.used ∧ i.c = names.length

/-- The first steps of a generic `for`, up to its body. -/
def enterGenericFor (names : List String) (values : List Source) (doLine : Nat) : LowerM Unit := do
  let _ ← enterFor genericState values names doLine
  let _ ← Emit.jump doLine 0 0

theorem lowerGenericFor_laid {sites : Workspace → List Nat} (hv : ∀ s ∈ values, s.Tidy)
    (hb : CarriesFrom body sites) (names : List String) (doLine lastLine : Nat) :
    Ensures False (lowerGenericFor names values body doLine lastLine) w fun _ w' =>
      w.Carries w.draft.pc [] w' ∧ (w.draft.registers.limit ≤ 0xff →
        ∀ start, start = stateAfter (enterGenericFor names values doLine) w →
          GenericSkeleton w names start (sites start) w') := by
  refine ((enterFor_enters hv genericState names doLine).and (ensures_run _ w)).bind
    fun hidden w₁ h₁ => ?_
  obtain ⟨⟨rfl, top, hopen⟩, hrun₁⟩ := h₁
  have hused : w₁.used = w.used + 3 + names.length := hopen.used
  have hle₁ : w.draft.pc ≤ w₁.draft.pc := hopen.pc
  refine ((asbx_carries w.draft.pc doLine 0 (.inl rfl) zero_le_maxOffset (by omega)
    (Int.le_refl 0)).and (ensures_run _ w₁)).bind fun enter w₂ h₂ => ?_
  obtain ⟨⟨rfl, hpc₂, henter, -, h₂⟩, hrun₂⟩ := h₂
  refine (hb w₂).bind fun _ w₃ h₃ => ?_
  have hle₃ := h₃.pc
  refine (closeCaptured_carries w.draft.pc lastLine (by omega)).bind fun _ w₄ h₄ => ?_
  replace h₄ := h₄.1
  have hle₄ := h₄.pc
  have hfrom₂ : w₂.Carries w.draft.pc (sites w₂) w₄ := by simpa using (h₃.mono (by omega)).trans h₄
  have hall₄ : w₁.Carries w.draft.pc (sites w₂) w₄ := by simpa using h₂.trans hfrom₂
  rw [ensures_here_bind]
  refine (hall₄.aim (.inl rfl) ((hfrom₂.kept _ (by omega)).trans henter) le_rfl hle₁
    (by omega) le_rfl).bind fun _ w₅ h₅ => ?_
  obtain ⟨haims, hall₅⟩ := h₅
  have hpc₅ := haims.pc
  -- the generator is where it was put when the loop was entered
  refine (localAt_ensures _).bind fun v w₆ h => ?_
  obtain ⟨hgenerator, rfl⟩ := h
  have hslot : v.slot = w.used := by
    obtain ⟨u, hu, -, hslot, -⟩ := ((hopen.hidden 0 _ rfl).appends hall₅.toAppends).entry
    obtain rfl := Option.some.inj (hgenerator.symm.trans hu)
    exact hslot
  rw [hslot]
  refine (plain_carries w.draft.pc doLine .tForCall w.used 0 (fun _ => rfl)
    (by omega)).bind fun _ w₇ h₇ => ?_
  obtain ⟨hpc₇, hcall, h₇⟩ := h₇
  refine (offsetFromHere_ensures (w₁.draft.pc + 1) (by omega)).bind fun back w₈ h => ?_
  obtain ⟨rfl, rfl, hreach⟩ := h
  refine (asbx_carries w.draft.pc doLine (w.used + 2) (.inr (.inr (.inr rfl))) hreach
    (by omega) (by omega)).bind fun _ w₉ h₉ => ?_
  obtain ⟨-, hpc₉, hloop, -, h₉⟩ := h₉
  have hall : w₁.Carries w.draft.pc (sites w₂) w₉ := by simpa using (hall₅.trans h₇).trans h₉
  refine (leaveFor_exits hopen.toEnters hopen.breaks hall le_rfl le_rfl).mono
    fun _ w₁₀ h₁₀ => ?_
  obtain ⟨hexits, hcarries⟩ := h₁₀
  have hpc₁₀ := hexits.pc
  refine ⟨hcarries, fun hlimit start hstart => ?_⟩
  have hentered : stateAfter (enterGenericFor names values doLine) w = w₂ :=
    stateAfter_of_ok (x := ()) ((bind_of_ok hrun₁).trans (bind_of_ok hrun₂))
  obtain rfl : start = w₂ := hstart.trans hentered
  have hroom : w.used + 3 ≤ w.draft.registers.limit := hopen.roomState (by simp [genericState])
  have hnames : names.length < 0x200 := by
    by_cases hne : names = []
    · simp [hne]
    · have hroomNames := hopen.roomNames hne
      omega
  have hlast : w₁₀.draft.pc - 1 = w₈.draft.pc := by omega
  have hprevious : w₁₀.draft.pc - 2 = w₆.draft.pc := by omega
  refine ⟨⟨w₁.draft.pc, hopen.skeleton rfl hall.toAppends hpc₂ (by omega) hexits, ?_, ?_⟩, ?_⟩
  · rw [hprevious, hpc₅]
    refine Workspace.jumpsAt_of_asbx (a := 0) ?_ haims.reach (by omega)
    rw [hexits.rest _ (h₃.not_mem (Or.inl (by omega))), h₉.kept _ (by omega), h₇.kept _ (by omega)]
    exact haims.jump
  · have hA : (w.used + 2) % 0x100 = w.used + 2 := Nat.mod_eq_of_lt (by omega)
    rw [hlast, ← hA]
    refine Workspace.jumpsAt_of_asbx ?_ hreach (by omega)
    rw [hexits.rest _ (h₃.not_mem (Or.inr (by omega)))]
    exact hloop
  · refine ⟨_, ?_, Instruction.opcode?_abc .tForCall w.used 0 names.length, ?_, ?_⟩
    · rw [hprevious, hexits.rest _ (h₃.not_mem (Or.inr (by omega))), h₉.kept _ (by omega)]
      exact hcall
    · rw [Instruction.a_abc, Nat.mod_eq_of_lt (by omega)]
    · rw [Instruction.c_abc, Nat.mod_eq_of_lt hnames]

end LuaLowering
