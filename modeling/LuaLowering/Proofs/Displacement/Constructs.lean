import LuaLowering.Proofs.Displacement.Steps
import LuaLowering.Proofs.Lockstep

/-!
# Constructs at two places

A construct that jumps or declares keeps the positions it needs, and in both functions
these are at the same places of the added code. So it writes the same offsets, and the
ranges of its locals are shifted as a whole.

A function inside begins at zero in both. It may refer to the functions around it, which
are twins, but what it finds there does not depend on where their code begins.
-/

namespace LuaLowering

open LowerM

open Placeless (Loads)

namespace Sites

variable {T : Sites} {k m n : Nat} {x y : Nat}

/-! ## Jumps and scopes -/

theorem offsetFromHere_abreast (hxy : T.At k x y) :
    T.Abreast k m m (offsetFromHere x) (offsetFromHere y) fun _ a b => b = a := by
  refine here_abreast.bind fun k' _ _ hk hhere => ?_
  exact (offsetBetween_abreast (hhere.at (Nat.le_refl _)) (hxy.mono hk)).mono fun _ _ _ h => h.2

theorem loadShortCircuit_steady (keep : Nat) {left right : Source} (hl : Loads Steady left)
    (hr : Loads Steady right) (a : Nat) : Steady Unit (loadShortCircuit keep left right a) := by
  refine steady_of_abreast fun T k m => ?_
  refine currentLine_steady.andThen fun _ line _ => usedRegisters_steady.andThen fun _ mark _ => ?_
  refine (steady_placeless.operand hl _).andThen fun _ b _ => ?_
  refine (giveBack_steady _).andThen fun _ _ _ => ?_
  refine (steady_placeless.plain _ _ _ _ _).andThen fun k₁ _ _ => ?_
  refine (asbx_abreast ..).bind fun k₂ skip skip' _ hskip => ?_
  obtain ⟨rfl, hskip⟩ := hskip
  refine (steady_placeless.operand hr _).andThen fun k₃ c hk₃ => ?_
  refine (giveBack_steady _).andThen fun k₄ _ hk₄ => ?_
  refine (steady_placeless.plain _ _ _ _ _).andThen fun k₅ _ hk₅ => ?_
  refine here_abreast.bind fun k₆ _ _ hk₆ htarget => ?_
  exact aimJump_abreast (hskip.written (by omega)) (htarget.at (Nat.le_refl _))

theorem lowerDeclare_steady (names : List String) {values : List Source}
    (hv : ∀ s ∈ values, Loads Steady s) (line : Nat) :
    Steady Unit (lowerDeclare names values line) := by
  refine steady_of_abreast fun T k m => ?_
  refine (setLine_steady line).andThen fun _ _ _ => usedRegisters_steady.andThen fun _ mark _ => ?_
  refine (steady_placeless.loadAdjusted _ hv line).andThen fun _ _ _ => ?_
  refine (giveBack_steady _).andThen fun _ _ _ => here_abreast.bind fun _ _ _ _ hhere => ?_
  exact declareLocals_abreast names hhere.shifted

theorem branchUnless_abreast {cond : Source} (hc : Loads Steady cond) (line : Nat) :
    T.Abreast k m m (branchUnless cond line) (branchUnless cond line) T.Written := by
  refine (setLine_steady line).andThen fun _ _ _ => usedRegisters_steady.andThen fun _ mark _ => ?_
  refine (steady_placeless.operand hc _).andThen fun _ r _ => ?_
  refine (giveBack_steady _).andThen fun _ _ _ => ?_
  refine (steady_placeless.plain _ _ _ _ _).andThen fun k₁ _ _ => ?_
  refine (asbx_abreast ..).mono fun k₂ _ _ hjump => ?_
  obtain ⟨rfl, hjump⟩ := hjump
  exact hjump.written (Nat.lt_succ_self k₁)

theorem lowerScoped_steady {body : LowerM Unit} (hb : Steady Unit body) (lastLine : Nat) :
    Steady Unit (lowerScoped body lastLine) := by
  refine steady_of_abreast fun T k m => ?_
  refine (openScope_abreast false).bind fun _ _ _ _ _ => hb.andThen fun _ _ _ => ?_
  refine (steady_placeless.closeCaptured lastLine).andThen fun _ _ _ => ?_
  refine here_abreast.bind fun _ _ _ _ hend => ?_
  exact closeScope_abreast hend.shifted

theorem lowerBreak_steady (line : Nat) : Steady Unit (lowerBreak line) := by
  refine steady_of_abreast fun T k m => (asbx_abreast ..).bind fun k₁ _ _ _ hjump => ?_
  obtain ⟨rfl, hjump⟩ := hjump
  exact addBreak_abreast (hjump.written (Nat.lt_succ_self k)) line

/-! ## Loops -/

theorem lowerWhile_steady {cond : Source} {body : LowerM Unit} (hc : Loads Steady cond)
    (hb : Steady Unit body) (line lastLine : Nat) :
    Steady Unit (lowerWhile cond body line lastLine) := by
  refine steady_of_abreast fun T k m => ?_
  refine here_abreast.bind fun k₁ _ _ _ hstart => ?_
  refine (branchUnless_abreast hc line).bind fun k₂ _ _ hk₂ hleave => ?_
  refine (openScope_abreast true).bind fun k₃ _ _ hk₃ _ => hb.andThen fun k₄ _ hk₄ => ?_
  refine (steady_placeless.closeCaptured lastLine).andThen fun k₅ _ hk₅ => ?_
  refine (offsetFromHere_abreast (hstart.at (by omega))).bind fun k₆ back _ hk₆ hback => ?_
  subst hback
  refine (asbx_abreast ..).bind fun k₇ _ _ hk₇ _ => here_abreast.bind fun k₈ _ _ hk₈ hend => ?_
  refine (closeScope_abreast hend.shifted).bind fun k₉ _ _ hk₉ _ => ?_
  refine here_abreast.bind fun k₁₀ _ _ hk₁₀ htarget => ?_
  exact aimJump_abreast (hleave.mono (by omega)) (htarget.at (Nat.le_refl _))

theorem lowerRepeat_steady {body : LowerM Unit} {cond : Source} (hb : Steady Unit body)
    (hc : Loads Steady cond) (line : Nat) : Steady Unit (lowerRepeat body cond line) := by
  refine steady_of_abreast fun T k m => ?_
  refine (openScope_abreast true).bind fun _ _ _ _ _ => here_abreast.bind fun k₁ _ _ _ hstart => ?_
  refine hb.andThen fun k₂ _ hk₂ => (setLine_steady line).andThen fun k₃ _ hk₃ => ?_
  refine usedRegisters_steady.andThen fun k₄ mark hk₄ => ?_
  refine (steady_placeless.operand hc _).andThen fun k₅ r hk₅ => ?_
  refine (giveBack_steady _).andThen fun k₆ _ hk₆ => ?_
  refine (steady_placeless.plain _ _ _ _ _).andThen fun k₇ _ hk₇ => ?_
  refine closeLevel_steady.andThen fun k₈ level hk₈ => ?_
  refine (offsetFromHere_abreast (hstart.at (by omega))).bind fun _ back _ _ hback => ?_
  subst hback
  refine (asbx_abreast ..).bind fun _ _ _ _ _ => ?_
  refine (steady_placeless.closeCaptured line).andThen fun _ _ _ => ?_
  exact here_abreast.bind fun _ _ _ _ hend => closeScope_abreast hend.shifted

theorem enterFor_abreast (state : List String) {values : List Source}
    (hv : ∀ s ∈ values, Loads Steady s) (names : List String) (line : Nat) :
    T.Abreast k m (m + 1) (enterFor state values names line) (enterFor state values names line)
      fun _ a b => b = a := by
  refine (setLine_steady line).andThen fun _ _ _ => ?_
  refine (openScope_abreast true).bind fun _ _ _ _ _ => ?_
  refine declaredCount_steady.andThen fun _ hidden _ => ?_
  refine (lowerDeclare_steady state hv line).andThen fun _ _ _ => ?_
  refine here_abreast.bind fun _ _ _ _ hhere => ?_
  exact (declareLocals_abreast names hhere.shifted.succ).bind fun _ _ _ _ _ => abreast_pure rfl

theorem before_abreast (hxy : T.Here k x y) (hn : n ≤ k) :
    T.Abreast k m m (before x n) (before y n) fun _ a b => T.Shifted a b := by
  obtain ⟨rfl, rfl⟩ := hxy
  unfold before
  rw [if_pos (by omega), if_pos (by omega)]
  refine abreast_pure ?_
  unfold Twins.Shifted
  omega

theorem leaveFor_abreast (hidden : Nat) (hn : n ≤ k) :
    T.Abreast k (m + 1) m (leaveFor hidden n) (leaveFor hidden n) fun _ _ _ => True := by
  refine here_abreast.bind fun k₁ _ _ hk hhere => ?_
  refine (before_abreast hhere (Nat.le_trans hn hk)).bind fun _ _ _ _ hend => ?_
  refine (closeScope_abreast hend).bind fun k₂ _ _ _ _ => ?_
  exact (prolongLocals_steady _ _ _ T k₂ m).mono fun _ _ _ _ => trivial

theorem lowerNumericFor_steady (var : String) {init limit step : Source} {body : LowerM Unit}
    (hi : Loads Steady init) (hl : Loads Steady limit) (hs : Loads Steady step)
    (hb : Steady Unit body) (forLine doLine lastLine : Nat) :
    Steady Unit (lowerNumericFor var init limit step body forLine doLine lastLine) := by
  have hvalues : ∀ s ∈ [init, limit, step], Loads Steady s := by
    simp only [List.forall_mem_cons, List.not_mem_nil, false_implies, implies_true, and_true]
    exact ⟨hi, hl, hs⟩
  refine steady_of_abreast fun T k m => ?_
  refine (enterFor_abreast _ hvalues _ _).bind fun _ hidden _ _ hhidden => ?_
  subst hhidden
  refine usedRegisters_steady.andThen fun _ used _ => ?_
  refine (steady_placeless.before used 4).andThen fun k₁ base _ => ?_
  refine (asbx_abreast ..).bind fun _ prep prep' _ hprep => ?_
  obtain ⟨rfl, hprep⟩ := hprep
  refine hb.andThen fun k₂ _ hk₂ => ?_
  refine (steady_placeless.closeCaptured lastLine).andThen fun k₃ _ hk₃ => ?_
  refine (asbx_abreast ..).bind fun _ next next' _ hnext => ?_
  obtain ⟨rfl, hnext⟩ := hnext
  refine (aimJump_abreast (hprep.written (by omega)) (hnext.at (by omega))).bind
    fun k₄ _ _ hk₄ _ => ?_
  refine (aimJump_abreast (hnext.written (by omega)) (hprep.succ.at (by omega))).bind
    fun k₅ _ _ hk₅ _ => ?_
  -- the instruction that steps the loop is an added one, so the end of the body is too
  exact leaveFor_abreast _ (by omega)

theorem lowerGenericFor_steady (names : List String) {values : List Source} {body : LowerM Unit}
    (hv : ∀ s ∈ values, Loads Steady s) (hb : Steady Unit body) (doLine lastLine : Nat) :
    Steady Unit (lowerGenericFor names values body doLine lastLine) := by
  refine steady_of_abreast fun T k m => ?_
  refine (enterFor_abreast _ hv names doLine).bind fun k₁ hidden _ _ hhidden => ?_
  subst hhidden
  refine (asbx_abreast ..).bind fun _ enter enter' _ henter => ?_
  obtain ⟨rfl, henter⟩ := henter
  refine hb.andThen fun k₂ _ hk₂ => ?_
  refine (steady_placeless.closeCaptured lastLine).andThen fun k₃ _ hk₃ => ?_
  refine here_abreast.bind fun k₄ _ _ hk₄ htarget => ?_
  refine (aimJump_abreast (henter.written (by omega)) (htarget.at (Nat.le_refl _))).bind
    fun k₅ _ _ hk₅ _ => ?_
  refine (localAt_abreast _).bind fun k₆ u v hk₆ hstate => ?_
  rw [hstate.slot]
  refine (steady_placeless.plain _ _ _ _ _).andThen fun k₇ _ hk₇ => ?_
  refine (offsetFromHere_abreast (henter.succ.at (by omega))).bind fun k₈ back _ hk₈ hback => ?_
  subst hback
  refine (asbx_abreast ..).bind fun _ _ _ _ hnext => ?_
  obtain ⟨rfl, -⟩ := hnext
  exact leaveFor_abreast _ (by omega)

/-! ## Branches -/

theorem lowerArm_abreast {arm : Arm} (ha : LowersArm Steady arm) :
    T.Abreast k m m (lowerArm arm) (lowerArm arm) T.Written := by
  refine (branchUnless_abreast ha.1 _).bind fun k₁ _ _ _ hskip => ?_
  exact (lowerScoped_steady ha.2 _).andThen fun k₂ _ hk₂ => abreast_pure (hskip.mono hk₂)

theorem lowerArms_abreast {arms : List Arm} (ha : ∀ arm ∈ arms, LowersArm Steady arm) :
    T.Abreast k m m (lowerArms arms) (lowerArms arms) fun k' => List.Forall₂ (T.Written k') := by
  induction arms generalizing k with
  | nil => exact abreast_pure .nil
  | cons arm rest ih =>
    obtain ⟨harm, hrest⟩ := List.forall_mem_cons.mp ha
    cases rest with
    | nil => exact (lowerArm_abreast harm).bind fun _ _ _ _ hskip =>
      abreast_pure (.cons hskip .nil)
    | cons arm' rest =>
      refine (lowerArm_abreast harm).bind fun k₁ _ _ _ hskip => ?_
      refine (asbx_abreast ..).bind fun _ _ _ _ hleave => ?_
      obtain ⟨rfl, hleave⟩ := hleave
      refine here_abreast.bind fun k₂ _ _ hk₂ htarget => ?_
      refine (aimJump_abreast (hskip.mono (by omega)) (htarget.at (Nat.le_refl _))).bind
        fun k₃ _ _ hk₃ _ => ?_
      refine (ih hrest).bind fun k₄ _ _ hk₄ hothers => abreast_pure ?_
      exact .cons (hleave.written (by omega)) hothers

theorem aimJumps_abreast {xs ys : List Nat} (h : List.Forall₂ (T.Written k) xs ys)
    (hxy : T.At k x y) : ∀ {k' : Nat}, k ≤ k' →
      T.Abreast k' m m (aimJumps x xs) (aimJumps y ys) fun _ _ _ => True := by
  -- the list says which `k` its places go by, so how far the code has come is kept apart
  induction h with
  | nil => exact fun _ => abreast_pure trivial
  | cons hfirst _ ih =>
    intro k' hk
    exact (aimJump_abreast (hfirst.mono hk) (hxy.mono hk)).bind fun _ _ _ hk' _ =>
      ih (Nat.le_trans hk hk')

theorem lowerIf_steady {arms : List Arm} (ha : ∀ arm ∈ arms, LowersArm Steady arm) :
    Steady Unit (lowerIf arms) := by
  refine steady_of_abreast fun T k m => (lowerArms_abreast ha).bind fun k₁ _ _ _ hexits => ?_
  refine here_abreast.bind fun k₂ _ _ hk₂ htarget => ?_
  exact aimJumps_abreast (hexits.imp fun _ _ h => h.mono hk₂) (htarget.at (Nat.le_refl _))
    (Nat.le_refl _)

/-! ## Functions inside -/

theorem writeFunction_abreast (params : List String) (isVararg : Bool) (line lastLine : Nat)
    {body : LowerM Unit} (hb : Steady Unit body) (hstart : T.right.pc = T.left.pc) :
    T.Abreast k (m + 1) m (writeFunction params isVararg line lastLine body)
      (writeFunction params isVararg line lastLine body) fun _ _ _ => True := by
  have hheading : Steady Unit (update fun d => { d with
      line, lineDefined := line, lastLineDefined := lastLine, paramCount := params.length,
      isVararg }) :=
    steady_update fun h => { h with
      line := rfl
      header := fun hT => congrArg
        (fun header => (header.1, header.2.1, params.length, isVararg, line, lastLine))
        (h.header hT) }
  refine hheading.andThen fun _ _ _ => ?_
  refine (declareLocals_abreast params (by unfold Twins.Shifted; omega)).bind fun _ _ _ _ _ => ?_
  refine hb.andThen fun _ _ _ => here_abreast.bind fun _ _ _ _ hend => ?_
  refine (closeScope_abreast hend.shifted.succ).bind fun k₁ _ _ _ _ => ?_
  exact (steady_placeless.ret _ _ _ T k₁ m).mono fun _ _ _ _ => trivial

/-- A function in both, which has nothing in it yet. -/
def entered (T : Sites) (k m : Nat) (d : Draft) : Sites where
  left := d
  right := d
  around := T.around.inside T.toTwins k m

theorem Workspaces.enter {w v : Workspace} (h : T.Workspaces k m w v) :
    (T.entered k m w.enter.draft).Workspaces 0 1 w.enter v.enter := by
  have hdraft : v.enter.draft = w.enter.draft := by
    unfold Workspace.enter
    dsimp only
    rw [h.options, h.draft.line]
  refine ⟨h.options, ⟨_, _, _, _, rfl, rfl, h.draft, h.enclosing⟩, ?_⟩
  -- the outermost scope is open from the start, but the function leaves it like any other
  rw [hdraft]
  exact {
    registers := rfl
    visible := rfl
    upvalues := rfl
    constants := rfl
    nested := rfl
    line := rfl
    header := fun _ => rfl
    code := ⟨[], rfl, rfl, rfl⟩
    lines := ⟨[], rfl, rfl⟩
    locals := fun i => .none
    scopes := .cons ⟨rfl, .none⟩ .nil
    inner := by
      intro s hs b hb
      rw [List.mem_singleton.mp hs] at hb
      exact absurd hb List.not_mem_nil }

theorem Workspaces.leave {w v : Workspace} {k' m' : Nat} {d : Draft}
    (h : (T.entered k m d).Workspaces k' m' w v) : T.Workspaces k m w.leave v.leave := by
  obtain ⟨p, q, ps, qs, hp, hq, hpq, hrest⟩ := h.enclosing
  rw [Workspace.leave, Workspace.leave, hp, hq]
  exact ⟨h.options, hrest, hpq⟩

theorem Workspaces.adopt {w v : Workspace} {k' m' : Nat} {d : Draft}
    (h : (T.entered k m d).Workspaces k' m' w v) (hd : d.locals = #[]) :
    T.Workspaces k m w.adopt v.adopt := by
  have hfinish : v.draft.finish v.options = w.draft.finish w.options := by
    rw [h.options]
    exact h.draft.finish_eq rfl hd w.options
  have hleave := h.leave
  refine ⟨hleave.options, hleave.enclosing, { hleave.draft with nested := ?_ }⟩
  show v.leave.draft.nested.push (v.draft.finish v.options) =
    w.leave.draft.nested.push (w.draft.finish w.options)
  rw [hfinish, hleave.draft.nested]

theorem function_steady (f : FunctionBody) (a : Nat) (hbody : Steady Unit f.body.lower) :
    Steady Unit (f.lower a) := by
  obtain ⟨params, isVararg, body, line, lastLine⟩ := f
  rw [FunctionBody.lower]
  intro T k m w v hw
  have hwrite := writeFunction_abreast params isVararg line lastLine hbody rfl hw.enter
  cases hwrite with
  | ok hr hs _ hinner _ =>
    rw [loadFunction_of_ok lastLine a hr, loadFunction_of_ok lastLine a hs,
      hinner.leave.draft.nested]
    exact steady_placeless.closure lastLine a _ T k m (hinner.adopt rfl)
  | stopped hr hs hinner =>
    exact .stopped (loadFunction_of_error lastLine a hr) (loadFunction_of_error lastLine a hs)
      hinner.leave

/-- Lowering does the same at either place. -/
theorem steady_constructwise : Constructwise Steady where
  toPlaceless := steady_placeless
  loadShortCircuit := loadShortCircuit_steady
  function := function_steady
  lowerDeclare := lowerDeclare_steady
  lowerScoped := lowerScoped_steady
  lowerBreak := lowerBreak_steady
  lowerWhile := lowerWhile_steady
  lowerRepeat := lowerRepeat_steady
  lowerIf := lowerIf_steady
  lowerNumericFor := lowerNumericFor_steady
  lowerGenericFor := lowerGenericFor_steady
  declareAhead name _ hload := fun T _ m => here_abreast.bind fun _ _ _ _ hhere =>
    (declareLocal_abreast name hhere.shifted.succ).bind fun k' r _ _ hr => hr ▸ hload r T k' m

end Sites

end LuaLowering
