import LuaLowering.Proofs.Evaluation.Growth

/-!
# What an operand denotes

`operand` looks for a value where it already is before it takes a register for it. There
are four ways in which it can end, and `Workspace.Gives` has one constructor for each: an
entry of the pool for a literal, the register of a local, an upvalue, and a fresh register
that the expression was lowered into because none of the others would do.

An upvalue carries a name and a place in the function around it. That the place is the
variable that the name means out there is an invariant of the whole stack of functions,
`CapturesOk`, and `Leads` follows it out to the function that declares the variable.

The function's own locals come before all that, but only where registers are accepted. A
caller that accepts upvalues and no registers gets the outer variable of a name even if a
local of the function hides it. Nothing in lowering asks for an operand in this way.
-/

namespace LuaLowering

open LowerM

variable {o : Options} {w w' w₁ : Workspace} {e : Expr} {kinds : OperandKinds} {d : Draft}
  {enclosing : List Draft} {c : Capture}

/-! ## Outer variables -/

/-- An upvalue of a function is the variable that a name means around it: a local of the first
function further out where it is visible, handed in by every function in between, or else what
the outermost function was given under that name. -/
inductive Leads (x : String) : Nat → Draft → List Draft → Prop
  | given {u : Nat} {d : Draft} {c : Capture} (hc : d.upvalues[u]? = some c) (hname : c.name = x) :
      Leads x u d []
  | here {u i : Nat} {d parent : Draft} {rest : List Draft} {v : Local}
      (hvisible : parent.visible.find? x = some i) (hv : parent.locals[i]? = some v)
      (hcaptured : v.captured = true) (hc : d.upvalues[u]? = some ⟨x, true, v.slot⟩) :
      Leads x u d (parent :: rest)
  | further {u u' : Nat} {d parent : Draft} {rest : List Draft}
      (hvisible : parent.visible.find? x = none) (hc : d.upvalues[u]? = some ⟨x, false, u'⟩)
      (h : Leads x u' parent rest) : Leads x u d (parent :: rest)

theorem CapturesOk.leads {u : Nat} (h : CapturesOk d enclosing) (hc : d.upvalues[u]? = some c) :
    Leads c.name u d enclosing := by
  induction enclosing generalizing d u c with
  | nil => exact .given hc rfl
  | cons parent rest ih =>
    obtain ⟨name, inStack, index⟩ := c
    have hfrom := h.1 _ (Array.mem_of_getElem? hc)
    unfold Capture.From at hfrom
    cases hvisible : parent.visible.find? name with
    | some i =>
      rw [hvisible] at hfrom
      obtain ⟨rfl, v, hv, rfl, hcaptured⟩ := hfrom
      exact .here hvisible hv hcaptured hc
    | none =>
      rw [hvisible] at hfrom
      obtain ⟨rfl, c', hc', rfl⟩ := hfrom
      have houter : Leads c'.name index parent rest := ih h.2 hc'
      exact .further hvisible hc houter

theorem Capture.From.marked {d' : Draft} (h : c.From d) (hm : d.Marked d') :
    c.From d' := h.kept (by rw [hm.rest]) hm.locals hm.upvalues

theorem CapturesOk.addCapture {parent : Draft} {rest : List Draft}
    (h : CapturesOk d (parent :: rest)) (hc : c.From parent) :
    CapturesOk (d.addCapture c (parent :: rest)).draft
      (d.addCapture c (parent :: rest)).enclosing := by
  unfold Draft.addCapture
  split
  · refine ⟨fun u hu => ?_, h.2⟩
    rcases Array.mem_push.mp hu with hu | rfl
    · exact h.1 u hu
    · exact hc
  · exact h

/-- The search for an outer variable leaves all upvalues described as they have to be, whatever
was done to the locals of the functions. -/
theorem CapturesOk.resolve (x : String) : ∀ {d : Draft},
    CapturesOk d enclosing →
      CapturesOk (d.resolve x enclosing).draft (d.resolve x enclosing).enclosing := by
  induction enclosing with
  | nil =>
    intro d h
    unfold Draft.resolve
    split <;> exact h
  | cons parent rest ih =>
    intro d h
    have hmarks := resolve_marks x rest parent
    have hout : CapturesOk d ((parent.resolve x rest).draft :: (parent.resolve x rest).enclosing) :=
      ⟨fun c hc => (h.1 c hc).marked hmarks.draft, ih h.2⟩
    unfold Draft.resolve
    split
    · exact h
    · dsimp only
      split
      · next i hvisible =>
        split
        · next v hv =>
          have hcapture := Draft.marked_capture (Draft.mem_seen.mpr ⟨x, hvisible⟩)
          exact CapturesOk.addCapture ⟨fun c hc => (h.1 c hc).marked hcapture, h.2.congr rfl⟩
            (Capture.from_capture hvisible hv)
        · exact h
      · next hvisible =>
        split
        · next u hu =>
          obtain ⟨-, c, hc, hname⟩ := (resolve_finds x parent).found u hu
          have hvisible' : (parent.resolve x rest).draft.visible.find? x = none := by
            rw [hmarks.draft.rest]
            exact hvisible
          exact hout.addCapture (Capture.from_upvalue hvisible' hc hname)
        · exact hout
        · exact hout

/-- A search that finds nothing changes nothing. -/
theorem resolve_eq_of_none (x : String) : ∀ {d : Draft},
    (d.resolve x enclosing).index = .ok none →
      (d.resolve x enclosing).draft = d ∧ (d.resolve x enclosing).enclosing = enclosing := by
  have hadd : ∀ (d : Draft) (c : Capture) (ds : List Draft),
      (d.addCapture c ds).index ≠ .ok none := by
    intro d c ds
    unfold Draft.addCapture
    split <;> exact fun h => by cases h
  induction enclosing with
  | nil =>
    intro d h
    unfold Draft.resolve
    split <;> exact ⟨rfl, rfl⟩
  | cons parent rest ih =>
    intro d h
    unfold Draft.resolve at h ⊢
    split
    · exact ⟨rfl, rfl⟩
    · next hd =>
      rw [hd] at h
      dsimp only at h ⊢
      split <;> rename_i hvisible <;> rw [hvisible] at h <;> dsimp only at h
      · split <;> rename_i hv <;> rw [hv] at h
        · exact absurd h (hadd _ _ _)
        · exact ⟨rfl, rfl⟩
      · split <;> rename_i hindex <;> rw [hindex] at h
        · exact absurd h (hadd _ _ _)
        · obtain ⟨hdraft, henclosing⟩ := ih hindex
          exact ⟨rfl, by rw [hdraft, henclosing]⟩
        · cases h

/-- Whatever happens to a workspace, the upvalues of its functions stay what their names mean
further out. -/
theorem capturesOk_lasting : Lasting fun w w' =>
    CapturesOk w.draft w.enclosing → CapturesOk w'.draft w'.enclosing where
  refl := fun _ => id
  trans := fun h₁ h₂ h => h₂ (h₁ h)
  draft := fun _ _ _ _ hupvalues h => h.congr hupvalues
  event := fun _ _ => id
  resolve := fun _ x h => h.resolve x
  leave := by
    intro w w' h hw
    have hinside := h ⟨fun c hc => absurd hc (Array.not_mem_empty c), hw⟩
    unfold Workspace.leave
    split
    · next hnil => exact hinside
    · next hcons =>
      rw [hcons] at hinside
      exact hinside.2

theorem Reachable.capturesOk (h : Reachable o w) : CapturesOk w.draft w.enclosing := by
  induction h with
  | fresh | main | handedOver => trivial
  | history _ hist ih => exact hist.lasts capturesOk_lasting ih
  | inside _ ih => exact ⟨fun c hc => absurd hc (Array.not_mem_empty c), ih⟩

theorem Underway.capturesOk (h : Underway o w) : CapturesOk w.draft w.enclosing := by
  induction h with
  | reached h => exact h.capturesOk
  | step _ hm hrun ih => exact (hm.lasts capturesOk_lasting _).of_ok hrun ih
  | entered _ ih => exact ⟨fun c hc => absurd hc (Array.not_mem_empty c), ih⟩
  | headed _ _ _ _ _ _ ih => exact ih.congr rfl

theorem upvalueOf?_leads (h : CapturesOk w.draft w.enclosing) (x : String) :
    Ensures False (upvalueOf? x) w fun found w' =>
      (∀ u, found = some u → List.Forall₂ Draft.Marked w.stack w'.stack ∧
        Leads x u w'.draft w'.enclosing) ∧
      (found = none → w' = w ∧ w.knows x = false) := by
  have hmarks := resolve_marks x w.enclosing w.draft
  have hfinds : (w.draft.resolve x w.enclosing).Finds x w.draft w.enclosing :=
    resolve_finds x w.draft
  unfold upvalueOf? Ensures
  dsimp only
  cases hindex : (w.draft.resolve x w.enclosing).index with
  | error stop =>
    cases stop with
    | rejected why => trivial
    | misused how => exact not_false
  | ok found =>
    refine ⟨fun u hu => ?_, fun hnone => ?_⟩
    · obtain ⟨-, c, hc, hname⟩ := hfinds.found u (hu ▸ hindex)
      exact ⟨.cons hmarks.draft hmarks.around, hname ▸ (h.resolve x).leads hc⟩
    · subst hnone
      obtain ⟨hdraft, henclosing⟩ := resolve_eq_of_none x hindex
      exact ⟨by rw [hdraft, henclosing], hfinds.missing hindex⟩

/-! ## Operands -/

namespace Workspace

/-- The workspace with another pool of constants. -/
def withPool (w : Workspace) (constants : Array Constant) : Workspace :=
  { w with draft := { w.draft with constants } }

/-- None of the accepted kinds gives the expression without a register of its own. A literal may
have come into the pool, out of the reach of operands. -/
structure Lacks (w : Workspace) (e : Expr) (kinds : OperandKinds) (w₀ : Workspace) : Prop where
  pool : ∃ constants, w₀ = w.withPool constants ∧ Keeps w.draft.constants constants
  literal : kinds.constants = true → ∀ k, e.literal? = some k →
    ∃ i, constantIndex k w = .ok i w₀ ∧ w.options.constantLimit < i
  slot : kinds.registers = true → ∀ x, e = .name x → w.slot? x = none
  outer : kinds.upvalues = true → ∀ x, e = .name x → w.knows x = false

/-- The operand that an expression is given as. -/
inductive Gives (w : Workspace) (e : Expr) (kinds : OperandKinds) : Operand → Workspace → Prop
  | constant {k c : Constant} {i : Nat} {constants : Array Constant}
      (hkind : kinds.constants = true) (hk : e.literal? = some k)
      (hi : i ≤ w.options.constantLimit) (hkeeps : Keeps w.draft.constants constants)
      (hpools : w.Pools k i c (w.withPool constants)) :
      Gives w e kinds (.constant i) (w.withPool constants)
  | register {x : String} {r : Nat} (hkind : kinds.registers = true) (he : e = .name x)
      (hr : w.slot? x = some r) : Gives w e kinds (.register r) w
  -- a local of that name is in the way of the outer variable only if registers are accepted
  | upvalue {x : String} {u : Nat} {w' : Workspace} (hkind : kinds.upvalues = true)
      (he : e = .name x) (hlocal : kinds.registers = true → w.slot? x = none)
      (hmarked : List.Forall₂ Draft.Marked w.stack w'.stack)
      (hu : Leads x u w'.draft w'.enclosing) : Gives w e kinds (.upvalue u) w'
  | fresh {w₀ w₁ w' : Workspace} (hlacks : w.Lacks e kinds w₀)
      (htake : takeRegister w₀ = .ok w.used w₁) (hload : e.lower w.used 1 w₁ = .ok () w') :
      Gives w e kinds (.register w.used) w'

end Workspace

theorem constantOperand?_gives
    (hpool : Distinct (fun a b : Constant => a.same b = true) w.draft.constants)
    (hkind : kinds.constants = true) :
    Ensures False (constantOperand? e) w fun found w' =>
      (∀ r, found = some r → w.Gives e kinds r w') ∧
      (found = none → (∃ constants, w' = w.withPool constants ∧ Keeps w.draft.constants constants) ∧
        (e.literal? = none → w' = w) ∧
        ∀ k, e.literal? = some k → ∃ i, constantIndex k w = .ok i w' ∧
          w.options.constantLimit < i) := by
  rw [constantOperand?]
  split
  · next hk =>
    refine ⟨(fun r hr => by cases hr), fun _ => ⟨⟨_, rfl, .refl _⟩, fun _ => rfl, fun k hk' => ?_⟩⟩
    rw [hk] at hk'
    cases hk'
  · next k hk =>
    obtain ⟨i, c, constants, hrun, hpools⟩ := constantIndex_pools hpool k
    have hkeeps : Keeps w.draft.constants constants :=
      ((worksOn_lasting.stepwise.constantIndex k w).of_ok hrun).constants
    have hindex : Ensures False (constantIndex k) w fun j w' =>
        j = i ∧ w' = w.withPool constants := by
      rw [Ensures, hrun]
      exact ⟨rfl, rfl⟩
    refine hindex.bind fun j w₁ h => ?_
    obtain ⟨rfl, rfl⟩ := h
    rw [ensures_options_bind, ensures_pure]
    refine ⟨fun r hr => ?_, fun hnone => ⟨⟨_, rfl, hkeeps⟩, fun hno => ?_, fun k' hk' => ?_⟩⟩
    · obtain ⟨hle, hr⟩ := Option.ite_none_right_eq_some.mp hr
      obtain rfl := Option.some.inj hr
      exact .constant hkind hk hle hkeeps hpools
    · rw [hk] at hno
      cases hno
    · rw [hk] at hk'
      obtain rfl := Option.some.inj hk'
      refine ⟨j, hrun, Nat.lt_of_not_le fun hle => ?_⟩
      rw [if_pos (show j ≤ (w.withPool constants).options.constantLimit from hle)] at hnone
      cases hnone

theorem nameOperand?_gives (hcap : CapturesOk w.draft w.enclosing) (x : String) :
    Ensures False (nameOperand? (.name x) kinds) w fun found w' =>
      (∀ r, found = some r → w.Gives (.name x) kinds r w') ∧
      (found = none → w' = w ∧ (kinds.registers = true → w.slot? x = none) ∧
        (kinds.upvalues = true → w.knows x = false)) := by
  have hlocal : Ensures False (if kinds.registers then slotOf? x else pure none) w fun r w' =>
      w' = w ∧ (∀ q, r = some q → kinds.registers = true ∧ w.slot? x = some q) ∧
        (r = none → kinds.registers = true → w.slot? x = none) := by
    split
    · next hkind =>
      exact (slotOf?_ensures x).mono fun r w' h =>
        ⟨h.1, fun q hq => ⟨hkind, h.2.symm.trans hq⟩, fun hr _ => h.2.symm.trans hr⟩
    · next hno => exact ⟨rfl, (fun q hq => by cases hq), fun _ hyes => absurd hyes hno⟩
  refine hlocal.bind fun r w₁ h => ?_
  obtain ⟨rfl, hr, hnone⟩ := h
  cases r with
  | some r =>
    obtain ⟨hkind, hslot⟩ := hr r rfl
    refine ⟨fun q hq => ?_, fun h => by cases h⟩
    obtain rfl := Option.some.inj hq
    exact .register hkind rfl hslot
  | none =>
    dsimp only
    by_cases hkind : kinds.upvalues = true
    · rw [if_pos hkind]
      refine (upvalueOf?_leads hcap x).bind fun found w₂ h => ?_
      obtain ⟨hfound, hmissing⟩ := h
      cases found with
      | some u =>
        obtain ⟨hmarked, hleads⟩ := hfound u rfl
        refine ⟨fun q hq => ?_, fun h => by cases h⟩
        obtain rfl := Option.some.inj hq
        exact .upvalue hkind rfl (hnone rfl) hmarked hleads
      | none =>
        obtain ⟨rfl, hknows⟩ := hmissing rfl
        exact ⟨(fun q hq => by cases hq), fun _ => ⟨rfl, hnone rfl, fun _ => hknows⟩⟩
    · rw [if_neg hkind]
      exact ⟨(fun q hq => by cases hq),
        fun _ => ⟨rfl, hnone rfl, fun hyes => absurd hyes hkind⟩⟩

/-- An operand denotes its expression, whichever kinds are accepted, except that an outer
variable may be given for a local that hides it. -/
theorem operand_gives (hw : Underway o w) {r : Operand}
    (hrun : operand e.source kinds w = .ok r w') : w.Gives e kinds r w' := by
  have hpool := (hw.forall_stack Draft.sound_fresh (Draft.sound_main o)
    (fun _ _ he => he.sound) _ List.mem_cons_self).constants
  have hconstant : Ensures False (if kinds.constants then constantOperand? e else pure none) w
      fun found w₁ => (∀ r, found = some r → w.Gives e kinds r w₁) ∧
        (found = none →
          (∃ constants, w₁ = w.withPool constants ∧ Keeps w.draft.constants constants) ∧
          (e.literal? = none → w₁ = w) ∧
          (kinds.constants = true → ∀ k, e.literal? = some k →
            ∃ i, constantIndex k w = .ok i w₁ ∧ w.options.constantLimit < i)) := by
    split
    · next hkind =>
      refine (constantOperand?_gives hpool hkind).mono fun found w₁ h => ⟨h.1, fun hnone => ?_⟩
      obtain ⟨hwith, hplain, hliteral⟩ := h.2 hnone
      exact ⟨hwith, hplain, fun _ => hliteral⟩
    · next hno =>
      exact ⟨(fun r hr => by cases hr),
        fun _ => ⟨⟨_, rfl, .refl _⟩, fun _ => rfl, fun hyes => absurd hyes hno⟩⟩
  suffices hgives : Ensures False (operand e.source kinds) w fun r w' => w.Gives e kinds r w' from
    hgives.of_ok hrun
  refine hconstant.bind fun found w₁ h => ?_
  obtain ⟨hfound, hmissing⟩ := h
  cases found with
  | some r => exact hfound r rfl
  | none =>
    obtain ⟨hwith, hplain, hliteral⟩ := hmissing rfl
    have hname : Ensures False (nameOperand? e kinds) w₁ fun found w₂ =>
        (∀ r, found = some r → w.Gives e kinds r w₂) ∧ (found = none → w.Lacks e kinds w₂) := by
      cases e with
      | name x =>
        obtain rfl := hplain rfl
        refine (nameOperand?_gives hw.capturesOk x).mono fun found w₂ h =>
          ⟨h.1, fun hnone => ?_⟩
        obtain ⟨rfl, hslot, houter⟩ := h.2 hnone
        refine ⟨hwith, hliteral, fun hkind y hy => ?_, fun hkind y hy => ?_⟩
        · exact Expr.name.inj hy ▸ hslot hkind
        · exact Expr.name.inj hy ▸ houter hkind
      | _ =>
        exact ⟨(fun r hr => by cases hr),
          fun _ => ⟨hwith, hliteral, (fun _ x hx => by cases hx), fun _ x hx => by cases hx⟩⟩
    refine hname.bind fun found w₂ h => ?_
    obtain ⟨hfound, hlacks⟩ := h
    cases found with
    | some r => exact hfound r rfl
    | none =>
      refine (ensures_run takeRegister w₂).bind fun r w₃ htake => ?_
      refine (ensures_run (e.source.load r 1) w₃).bind fun _ w₄ hload => ?_
      obtain ⟨-, rfl, -⟩ := takeRegister_writes.of_ok htake
      have hused : w₂.used = w.used := by
        obtain ⟨constants, rfl, -⟩ := (hlacks rfl).pool
        rfl
      rw [ensures_pure]
      rw [hused] at htake hload ⊢
      exact .fresh (hlacks rfl) htake hload

/-- A local that hides one of the function around is passed over if only upvalues are accepted. -/
theorem operand_gives_of_hidden :
    ∃ w w', Underway {} w ∧ w.slot? "x" = some 0 ∧
      operand (Expr.name "x").source .upvalue w = .ok (.upvalue 0) w' ∧
      w.Gives (.name "x") .upvalue (.upvalue 0) w' := by
  have hrun : (match declareLocal "x" 0 (.main {}) with
      | .ok _ w₁ =>
        match declareLocal "x" 0 w₁.enter with
        | .ok _ w =>
          match operand (Expr.name "x").source .upvalue w with
          | .ok r _ => decide (w.slot? "x" = some 0 ∧ r = .upvalue 0)
          | _ => false
        | _ => false
      | _ => false) = true := by decide +kernel
  split at hrun
  · next w₁ hdeclare =>
      split at hrun
      · next w hhide =>
          split at hrun
          · next r w' hoperand =>
              obtain ⟨hslot, rfl⟩ := of_decide_eq_true hrun
              have hw₁ : Underway {} w₁ := .step (.reached .main) (.declareLocal "x" 0) hdeclare
              have hw : Underway {} w := .step hw₁.entered (.declareLocal "x" 0) hhide
              exact ⟨w, w', hw, hslot, hoperand, operand_gives hw hoperand⟩
          · cases hrun
      · cases hrun
  · cases hrun

end LuaLowering
