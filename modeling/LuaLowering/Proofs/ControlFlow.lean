import LuaLowering.Proofs.Layout.Statement

/-!
# The code of loops and branches

What the four loops and the arms of an `if` look like once they are lowered, whatever their
conditions, values and bodies are and whatever state they are lowered in: where their own
instructions stand, where these lead, and which registers and which stretch of code the
locals of a loop have. The bodies are described by the states in which they are lowered.
-/

namespace LuaLowering

open LowerM

variable {w w' : Workspace}

/-! ## Loops -/

/-- The state in which the body of a loop is lowered. -/
def Stat.bodyStart : Stat → Workspace → Workspace
  | .whileLoop cond _ line, w =>
    stateAfter (do let _ ← branchUnless cond.source line; openScope true) w
  | .repeatLoop _ _ _, w => stateAfter (openScope true) w
  | .numericFor var init limit step _ forLine doLine, w =>
    stateAfter
      (enterNumericFor var init.source limit.source (Expr.stepSource step) forLine doLine) w
  | .genericFor names values _ doLine, w =>
    stateAfter (enterGenericFor names (Expr.sources values) doLine) w
  | _, w => w

/-- The instructions of a loop around its body, the locals of a `for`, and the breaks of the
body stand where they should. -/
def Stat.Skeleton (s : Stat) (w w' : Workspace) : Prop :=
  match s with
  | .whileLoop _ body _ => WhileSkeleton w (s.bodyStart w) (body.breaks (s.bodyStart w)) w'
  | .repeatLoop body _ _ => RepeatSkeleton w (s.bodyStart w) (body.breaks (s.bodyStart w)) w'
  | .numericFor var _ _ _ body _ _ =>
    NumericSkeleton w var (s.bodyStart w) (body.breaks (s.bodyStart w)) w'
  | .genericFor names _ body _ =>
    GenericSkeleton w names (s.bodyStart w) (body.breaks (s.bodyStart w)) w'
  | _ => True

/-- Every loop that can be lowered has its skeleton. -/
theorem Stat.lower_skeleton {s : Stat} (hlimit : w.draft.registers.limit ≤ 255)
    (hrun : s.lower w = .ok () w') : s.Skeleton w w' := by
  cases s with
  | whileLoop cond body line =>
    rw [Stat.lower] at hrun
    have hlaid := (lowerWhile_laid (Expr.lower_tidy cond) (Block.lower_carries body) line
      body.lastLine).of_ok hrun
    exact hlaid.2 _ rfl
  | repeatLoop body cond line =>
    rw [Stat.lower] at hrun
    have hlaid := (lowerRepeat_laid (Expr.lower_tidy cond) (Block.lower_carries body) line).of_ok
      hrun
    exact hlaid.2 _ rfl
  | numericFor var init limit step body forLine doLine =>
    rw [Stat.lower_numericFor] at hrun
    have hlaid := (lowerNumericFor_laid (Expr.lower_tidy init) (Expr.lower_tidy limit)
      (Expr.stepSource_tidy step) (Block.lower_carries body) var forLine doLine
      body.lastLine).of_ok hrun
    exact hlaid.2 hlimit _ rfl
  | genericFor names values body doLine =>
    rw [Stat.lower] at hrun
    have hlaid := (lowerGenericFor_laid (Expr.sources_tidy values) (Block.lower_carries body)
      names doLine body.lastLine).of_ok hrun
    exact hlaid.2 hlimit _ rfl
  | _ => trivial

/-- A body with a break in an `if` and a loop of its own, which has a break and a closure that
captures a variable of each of the two loops. -/
def Block.nestedLoop : Block :=
  let captures : Expr := .function ⟨[], false, ⟨[], some [.name "k", .name "i"], 4⟩, 4, 4⟩
  let inner : Stat := .numericFor "i" (.integer 1) (.name "v") none
    ⟨[.assign [.name "f"] [captures] 4, .break 5], none, 6⟩ 3 3
  ⟨[.ifChain [⟨.name "v", ⟨[.break 2], none, 2⟩, 2⟩], inner], none, 7⟩

theorem Stat.lower_skeleton_nested :
    let s : Stat := .genericFor ["k", "v"] [.call ⟨.name "pairs", none, [.name "t"], 1⟩]
      .nestedLoop 1
    ∃ w', s.lower (.main {}) = .ok () w' ∧ (Workspace.main {}).draft.registers.limit ≤ 255 ∧
      w'.draft.pc = 19 ∧ Block.nestedLoop.breaks (s.bodyStart (.main {})) = [6] ∧
      s.Skeleton (.main {}) w' := by
  intro s
  have hrun : (match s.lower (.main {}) with
      | .ok _ w' => decide (w'.draft.pc = 19)
      | _ => false) = true := by decide +kernel
  split at hrun
  · next w' hlower =>
      exact ⟨w', hlower, by decide, of_decide_eq_true hrun, by decide +kernel,
        Stat.lower_skeleton (by decide) hlower⟩
  · cases hrun

/-! ## Branches -/

/-- An arm of an `if` with the steps that lower its parts. -/
def Branch.arm (b : Branch) : Arm := ⟨b.cond.source, b.body.lower, b.line, b.body.lastLine⟩

theorem Branch.arms_eq_map (arms : List Branch) : Branch.arms arms = arms.map Branch.arm := by
  induction arms with
  | nil => rw [Branch.arms, List.map_nil]
  | cons b rest ih =>
    cases b
    rw [Branch.arms, ih, List.map_cons, Branch.arm, Expr.source]

namespace ArmRun

variable {r : ArmRun} {arm : Arm}

theorem Lowers.ordered (h : r.Lowers arm w') :
    r.start.draft.pc ≤ r.test ∧ r.tested.draft.pc = r.test + 2 ∧
      r.tested.draft.pc ≤ r.stop.draft.pc :=
  ⟨h.cond.pc, h.tests.pc, h.block.pc⟩

/-- The code of an arm leads into the arm or to its end, but for the jump that is taken if the
condition is false. -/
theorem Lowers.stays (h : r.Lowers arm w') {pc : Nat} {i : Instruction}
    (hcode : w'.draft.code[pc]? = some i) (hge : r.start.draft.pc ≤ pc)
    (hlt : pc < r.stop.draft.pc) (hskip : pc ≠ r.skip) :
    i.StaysIn pc r.start.draft.pc r.stop.draft.pc := by
  obtain ⟨hstart, htested, hstop⟩ := h.ordered
  have hskip' : pc ≠ r.test + 1 := hskip
  intro t ht
  rcases Nat.lt_trichotomy pc r.test with hbelow | rfl | habove
  · -- the condition
    obtain ⟨j, hj, -, hnext⟩ := h.cond.code pc hge hbelow
    obtain rfl : j = i :=
      Option.some.inj (hj.symm.trans ((h.condCode pc hge hbelow).symm.trans hcode))
    have hto := hnext.2 t ht
    have htest : r.loaded.draft.pc = r.test := rfl
    omega
  · -- the test
    obtain rfl := Option.some.inj (h.testCode.symm.trans hcode)
    simp [Instruction.targets, Instruction.ways_eq (Instruction.opcode?_abc ..),
      Instruction.target] at ht
    omega
  · -- the block
    have hge' : r.tested.draft.pc ≤ pc := by omega
    obtain ⟨j, hj, hin⟩ := h.block.code pc hge' hlt
    obtain rfl : j = i :=
      Option.some.inj (hj.symm.trans ((h.blockCode pc hge' hlt).symm.trans hcode))
    have hto := hin t ht
    omega

end ArmRun

namespace ArmsLaid

variable {exit : Nat} {arms : List Arm} {runs : List ArmRun}

section

variable (h : ArmsLaid w' exit arms runs)

include h

theorem lowers : List.Forall₂ (fun arm r => ArmRun.Lowers r arm w') arms runs := by
  induction h with
  | last hlowers => exact .cons hlowers .nil
  | cons hlowers _ _ _ _ _ ih => exact .cons hlowers ih

theorem exists_arm : ∀ r ∈ runs, ∃ arm, r.Lowers arm w' := by
  induction h with
  | last hlowers => simpa using ⟨_, hlowers⟩
  | cons hlowers _ _ _ _ _ ih =>
    intro r hr
    rcases List.mem_cons.mp hr with rfl | hr
    · exact ⟨_, hlowers⟩
    · exact ih r hr

/-- From each arm the lowering, and control if the condition is false, goes on to the next; from
the end of its block control goes past all of them. -/
theorem next :
    ∀ (k : Nat) (arm : Arm) (r s : ArmRun), arms[k]? = some arm → runs[k]? = some r →
      runs[k + 1]? = some s → passArm arm r.start = .ok r.stop.draft.pc s.start ∧
      w'.JumpsAt .jmp r.skip 0 s.start.draft.pc ∧ w'.JumpsAt .jmp r.stop.draft.pc 0 exit ∧
      s.start.draft.pc = r.stop.draft.pc + 1 := by
  induction h with
  | last => simp
  | cons _ hrun hskip hleave hstart _ ih =>
    intro k arm r s harm hr hs
    cases k with
    | zero =>
      simp only [List.getElem?_cons_zero, List.getElem?_cons_succ, Option.some.injEq] at harm hr hs
      subst harm hr hs
      exact ⟨hrun, hskip, hleave, hstart⟩
    | succ k => exact ih k arm r s harm hr hs

theorem last_arm :
    ∃ r, runs.getLast? = some r ∧ w'.JumpsAt .jmp r.skip 0 exit ∧ r.stop.draft.pc = exit := by
  induction h with
  | last _ hskip hstop => exact ⟨_, rfl, hskip, hstop⟩
  | cons _ _ _ _ _ _ ih =>
    obtain ⟨r, hr, hlast⟩ := ih
    exact ⟨r, by rw [List.getLast?_cons_cons, hr], hlast⟩

/-- The arms come one after the other. -/
theorem ordered : runs.Pairwise fun r s => r.stop.draft.pc < s.start.draft.pc := by
  induction h with
  | last => exact List.pairwise_singleton _ _
  | @cons _ _ r s runs _ _ _ _ hstart hrest ih =>
    obtain ⟨arm, hlowers⟩ := hrest.exists_arm s List.mem_cons_self
    have hsecond := hlowers.ordered
    rw [List.pairwise_cons] at ih ⊢
    refine ⟨fun t ht => ?_, List.pairwise_cons.mpr ih⟩
    rcases List.mem_cons.mp ht with rfl | ht
    · omega
    · have hlater := ih.1 t ht
      omega

end

end ArmsLaid

/-- A condition that is a local is tested where it is. -/
theorem Workspace.Tests.of_local {cond : Source} {u : Workspace} {o : Operand} {x : String}
    {slot : Nat} (h : w.Tests cond u o w') (hx : cond.exp = .name x)
    (hslot : w.slot? x = some slot) :
    o = .register slot ∧ u.draft.pc = w.draft.pc := by
  cases h.finds with
  | constant hkinds => cases hkinds
  | register hx' hr hwrites =>
    obtain rfl := Expr.name.inj (hx.symm.trans hx')
    exact ⟨congrArg _ (Option.some.inj (hr.symm.trans hslot)), hwrites.pc⟩
  | upvalue _ hkinds => cases hkinds
  | fresh hname => exact absurd (hname x hx rfl) (by simp [hslot])

/-- The arms of an `if` were lowered, each in the state that the one before it left. -/
structure Workspace.Dispatches (w : Workspace) (arms : List Branch) (runs : List ArmRun)
    (w' : Workspace) : Prop where
  first : ∃ r, runs.head? = some r ∧ r.start = w
  lowers : List.Forall₂ (fun (b : Branch) r => ArmRun.Lowers r b.arm w') arms runs
  /-- An arm begins with its test if the condition is a local. -/
  locals : ∀ (k : Nat) (b : Branch) (r : ArmRun) (x : String) (slot : Nat), arms[k]? = some b →
    runs[k]? = some r → b.cond = .name x → r.start.slot? x = some slot →
    r.operand = .register slot ∧ r.test = r.start.draft.pc
  /-- A condition that is false leads to the next arm, and the end of a block past all arms. -/
  next : ∀ (k : Nat) (b : Branch) (r s : ArmRun), arms[k]? = some b → runs[k]? = some r →
    runs[k + 1]? = some s → passArm b.arm r.start = .ok r.stop.draft.pc s.start ∧
    w'.JumpsAt .jmp r.skip 0 s.start.draft.pc ∧ w'.JumpsAt .jmp r.stop.draft.pc 0 w'.draft.pc ∧
    s.start.draft.pc = r.stop.draft.pc + 1
  last : ∃ r, runs.getLast? = some r ∧ w'.JumpsAt .jmp r.skip 0 w'.draft.pc ∧
    r.stop.draft.pc = w'.draft.pc
  /-- Nothing in a condition or a block leads into another arm. -/
  apart : ∀ (j k : Nat) (r s : ArmRun), runs[j]? = some r → runs[k]? = some s → j ≠ k →
    ∀ (pc : Nat) (i : Instruction), w'.draft.code[pc]? = some i → r.start.draft.pc ≤ pc →
      pc < r.stop.draft.pc → pc ≠ r.skip → ∀ t ∈ i.targets pc,
        t < s.start.draft.pc ∨ s.stop.draft.pc < t

theorem Stat.ifChain_dispatches {arms : List Branch} (hne : arms ≠ [])
    (hrun : (Stat.ifChain arms).lower w = .ok () w') : ∃ runs, w.Dispatches arms runs w' := by
  rw [Stat.lower] at hrun
  have hlaid := ((lowerIf_laid (Branch.arms_fit arms)).of_ok hrun).2
  rw [Branch.arms_eq_map] at hlaid
  obtain ⟨first, runs, hfirst, hlaid⟩ := hlaid (by simpa using hne)
  have hlowers := List.forall₂_map_left_iff.mp hlaid.lowers
  refine ⟨first :: runs, ⟨first, rfl, hfirst⟩, hlowers, ?_, ?_, hlaid.last_arm, ?_⟩
  · intro k b r x slot hb hr hx hslot
    obtain ⟨hk, rfl⟩ := List.getElem?_eq_some_iff.mp hb
    obtain ⟨hk', rfl⟩ := List.getElem?_eq_some_iff.mp hr
    have hlowered := (List.forall₂_iff_get.mp hlowers).2 k hk hk'
    exact hlowered.tests.of_local hx hslot
  · intro k b r s hb hr hs
    exact hlaid.next k b.arm r s (by simp [hb]) hr hs
  intro j k r s hr hs hjk pc i hcode hge hlt hskip t ht
  obtain ⟨arm, harm⟩ := hlaid.exists_arm r (List.mem_of_getElem? hr)
  have hin := harm.stays hcode hge hlt hskip t ht
  obtain ⟨hj, rfl⟩ := List.getElem?_eq_some_iff.mp hr
  obtain ⟨hk, rfl⟩ := List.getElem?_eq_some_iff.mp hs
  have hordered := List.pairwise_iff_getElem.mp hlaid.ordered
  rcases Nat.lt_or_gt_of_ne hjk with hlt | hgt
  · have hbefore := hordered j k hj hk hlt
    omega
  · have hafter := hordered k j hk hj hgt
    omega

/-- The condition of the first arm is a local; the block of the second has a loop with a break
and that of the last a local which a closure captures. -/
def Branch.sample : List Branch :=
  let captures : Expr := .function ⟨[], false, ⟨[], some [.name "y"], 6⟩, 6, 6⟩
  [⟨.name "x", ⟨[.call ⟨.name "f", none, [], 1⟩], none, 1⟩, 1⟩,
    ⟨.binary .lt (.name "x") (.integer 1),
      ⟨[.whileLoop (.boolean true) ⟨[.break 3], none, 3⟩ 2], none, 3⟩, 2⟩,
    ⟨.boolean true,
      ⟨[.declare ["y"] [.name "x"] 5, .assign [.name "g"] [captures] 6], none, 7⟩, 4⟩]

theorem Stat.ifChain_dispatches_sample :
    ∃ w w', declareLocal "x" 0 (.main {}) = .ok 0 w ∧ Branch.sample ≠ [] ∧
      (Stat.ifChain Branch.sample).lower w = .ok () w' ∧ w'.draft.pc = 24 ∧
      ∃ runs, w.Dispatches Branch.sample runs w' := by
  have hrun : (match declareLocal "x" 0 (.main {}) with
      | .ok r w =>
        match (Stat.ifChain Branch.sample).lower w with
        | .ok _ w' => decide (r = 0 ∧ w'.draft.pc = 24)
        | _ => false
      | _ => false) = true := by decide +kernel
  split at hrun
  · next r w hdeclare =>
      split at hrun
      · next w' hlower =>
          obtain ⟨rfl, hpc⟩ := of_decide_eq_true hrun
          have hne : Branch.sample ≠ [] := List.cons_ne_nil _ _
          exact ⟨w, w', hdeclare, hne, hlower, hpc, Stat.ifChain_dispatches hne hlower⟩
      · cases hrun
  · cases hrun

end LuaLowering
