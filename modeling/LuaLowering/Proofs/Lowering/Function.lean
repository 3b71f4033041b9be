import LuaLowering.Proofs.Lowering.Statement

/-!
# Lowering calls, returns and functions

A nested function is written in a workspace of its own, in front of the one
around it. When it is done, the one around it comes back, touched at most, and
the nested one never changes again. So what was written in it is known at once,
at the site that it makes together with the functions around it.
-/

namespace LuaLowering

open LowerM

variable {safe : Prop} {w : Workspace} {prepare : Nat → LowerM Int} {callee : Part}
  {method : Option String} {args parts : List Part} {values : List Source} {d : Draft}
  {params : List String} {body write : LowerM Unit} {shape : StatShape} {written : Site → Prop}

/-! ## Calls and returns as statements -/

theorem lowerCallStat_lowers (hp : Prepares safe prepare callee method args) (line : Nat) :
    Lowers safe (lowerCallStat prepare line) (CallStatIs callee method args) := by
  intro w hw hrest
  unfold lowerCallStat
  refine (setLine_spec hw line).bind fun _ w₁ => ?_
  rintro ⟨hused₁, hmark₁, hload₁⟩
  refine (takeRegister_spec hload₁.wf).bind fun r w₂ => ?_
  rintro ⟨rfl, hused₂, hmark₂, hload₂⟩
  refine (finishCall_spec hp line (fun _ => by decide) hload₂.wf (by omega)).bind
    fun _ w₃ => ?_
  rintro ⟨hused₃, hload₃⟩
  have hload₁₃ := (hload₁.trans hload₂).trans hload₃
  have hheld : w₃.opened.length < w₃.used := by
    have hheld := hw.held
    rw [hload₁₃.opened]
    omega
  refine (freeRegister_spec hload₃.wf hheld).mono fun _ w₄ => ?_
  rintro ⟨hused₄, hmark₄, hload₄⟩
  refine ⟨[], [], .of_loads hrest (hload₁₃.trans hload₄) (by omega)
    fun S _ ⟨⟨⟨_, hroom⟩, hcall⟩, _⟩ _ => ⟨w₃.mark, ?_, ?_, ?_⟩⟩
  · rw [hused₁, hrest.used] at hroom
    exact hroom
  · rw [hload₂.opened, hload₁.opened, hused₂, hused₁, hrest.used, hmark₂, hmark₁] at hcall
    exact hcall ⟨by decide, by decide⟩
  · rw [(hload₁₃.trans hload₄).point, hmark₄]

theorem lowerReturnCall_lowers (hp : Prepares safe prepare callee method args)
    (callLine line : Nat) :
    Lowers safe (lowerReturnCall prepare callLine line) (ReturnCallIs callee method args) := by
  intro w hw hrest
  unfold lowerReturnCall
  refine (setLine_spec hw line).bind fun _ w₁ => ?_
  rintro ⟨hused₁, hmark₁, hload₁⟩
  refine (takeRegister_spec hload₁.wf).bind fun r w₂ => ?_
  rintro ⟨rfl, hused₂, hmark₂, hload₂⟩
  refine (finishTailCall_spec hp callLine hload₂.wf (by omega)).bind fun _ w₃ => ?_
  rintro ⟨hused₃, mid, hmark₃, hload₃⟩
  have hload₁₃ := (hload₁.trans hload₂).trans hload₃
  have hheld : w₃.opened.length < w₃.used := by
    have hheld := hw.held
    rw [hload₁₃.opened]
    omega
  refine (freeRegister_spec hload₃.wf hheld).bind fun _ w₄ => ?_
  rintro ⟨hused₄, hmark₄, hload₄⟩
  refine (ret_spec hload₄.wf line w₁.used .all).mono fun _ w₅ => ?_
  rintro ⟨hused₅, hmark₅, hload₅⟩
  have hload := (hload₁₃.trans hload₄).trans hload₅
  refine ⟨[], [], .of_loads hrest hload (by omega)
    fun S _ ⟨⟨⟨⟨_, hroom⟩, n, hcall, htail⟩, _⟩, hret⟩ _ => ⟨n, mid.mark, ?_, ?_, ?_, ?_, ?_⟩⟩
  · rw [hused₁, hrest.used] at hroom
    exact hroom
  · rw [hload₂.opened, hload₁.opened, hused₂, hused₁, hrest.used, hmark₂, hmark₁] at hcall
    exact hcall
  · rw [hused₁, hrest.used, hmark₃] at htail
    exact htail
  · have hret := hret (hload₂.wf.reg_lt (by omega))
    rw [hused₁, hrest.used, hmark₅, hmark₄, hmark₃] at hret
    exact hret
  · rw [hload.point, hmark₅, hmark₄, hmark₃]

theorem lowerReturnLoaded_spec (hv : Sources.Meet safe values parts) (hw : w.Wf) (hrest : w.AtRest)
    (line : Nat) :
    Ensures safe (lowerReturnLoaded values line) w fun _ w' => w'.used = w.used ∧
      Loads [] w w' fun S => ∃ n mid, AllIs S w.opened parts n w.opened.length w.mark mid ∧
        S.Writes (.abc .ret w.opened.length (countCode n) 0) mid mid.next ∧ w'.mark = mid.next := by
  unfold lowerReturnLoaded
  refine (loadAll_spec hv hw).bind fun n w₁ => ?_
  rintro ⟨hn, hused₁, hload₁⟩
  have hheld := hw.held
  rw [hv.length_eq]
  refine (freeRegisters_spec hload₁.wf (by rw [hload₁.opened]; omega)).bind fun _ w₂ => ?_
  rintro ⟨hused₂, hmark₂, hload₂⟩
  rw [ensures_usedRegisters_bind]
  have hmax := hload₁.wf.used_le
  unfold frameRegisters at hmax
  refine (ret_spec hload₂.wf line w₂.used ?_).mono fun _ w₃ => ?_
  · rcases hn with rfl | rfl
    · exact .all
    · exact ⟨by omega, by omega⟩
  · rintro ⟨hused₃, hmark₃, hload₃⟩
    have hu : w₂.used = w.used := by omega
    refine ⟨hused₃.trans hu, ((hload₁.trans hload₂).trans hload₃).mono
      fun S _ ⟨⟨hall, _⟩, hret⟩ => ⟨n, w₁.mark, ?_, ?_, ?_⟩⟩
    · rw [hrest.used] at hall
      exact hall
    · have hret := hret (Nat.lt_succ_of_le hload₂.wf.used_le)
      rw [hu, hrest.used, hmark₃, hmark₂] at hret
      exact hret
    · rw [hmark₃, hmark₂]

theorem lowerReturn_lowers (hv : Sources.Meet safe values parts) (line : Nat) :
    Lowers safe (lowerReturn values line) (ReturnIs parts) := by
  intro w hw hrest
  unfold lowerReturn
  refine (setLine_spec hw line).bind fun _ w₁ => ?_
  rintro ⟨hused₁, hmark₁, hload₁⟩
  have hrest₁ := hrest.loads hload₁ hused₁
  have hloaded : Ensures safe (lowerReturnLoaded values line) w₁ fun _ w' =>
      ∃ bs new, Advances w w' bs new (ReturnIs parts) := by
    refine (lowerReturnLoaded_spec hv hload₁.wf hrest₁ line).mono fun _ w₂ => ?_
    rintro ⟨hused₂, hload₂⟩
    refine ⟨[], [], .of_loads hrest (hload₁.trans hload₂) (hused₂.trans hused₁)
      fun S _ ⟨_, n, mid, hall, hret, hmark₂⟩ _ => ?_⟩
    rw [hload₁.opened, hmark₁] at hall
    rw [hload₁.opened] at hret
    refine .loaded hall hret ?_
    rw [(hload₁.trans hload₂).point, hmark₂]
  split
  · refine (ret_spec hload₁.wf line 0 .none).mono fun _ w₂ => ?_
    rintro ⟨hused₂, hmark₂, hload₂⟩
    refine ⟨[], [], .of_loads hrest (hload₁.trans hload₂) (hused₂.trans hused₁)
      fun S _ ⟨_, hret⟩ _ => ?_⟩
    cases hv
    rw [hmark₂, hmark₁] at hret
    refine .nothing rfl (hret (by decide)) ?_
    rw [(hload₁.trans hload₂).point, hmark₂, hmark₁]
    rfl
  · next x load =>
    refine (slotOf?_spec hload₁.wf x).bind fun r w' => ?_
    rintro ⟨rfl, hslot⟩
    cases r with
    | none => exact hloaded
    | some r =>
      refine (ret_spec hload₁.wf line r .one).mono fun _ w₂ => ?_
      rintro ⟨hused₂, hmark₂, hload₂⟩
      refine ⟨[], [], .of_loads hrest (hload₁.trans hload₂) (hused₂.trans hused₁)
        fun S hS ⟨_, hret⟩ _ => ?_⟩
      have hS := hS.back hload₂.continues
      obtain ⟨v, hv', rfl⟩ := hslot S hS
      have hret := hret (hS.local_lt hload₁.wf hv')
      rw [hmark₂, hmark₁] at hret
      rw [hload₁.opened] at hv'
      cases hv with
      | cons hs hnil =>
        cases hnil
        refine .register rfl hs.exp.symm hv' hret ?_
        rw [(hload₁.trans hload₂).point, hmark₂, hmark₁]
        rfl
  · exact hloaded

/-! ## Functions -/

/-- Nothing has been written of a function yet. -/
structure Workspace.Blank (w : Workspace) : Prop where
  point : w.point = ⟨⟨0, 0⟩, [], 0⟩
  used : w.used = 0
  scopes : w.draft.scopes = [{}]

theorem Workspace.Blank.opened (h : w.Blank) : w.opened = [] := congrArg Point.opened h.point

theorem Draft.Wf.blank (hs : d.scopes = [{}]) (hv : d.visible = []) (hu : d.registers.used = 0)
    (hup : d.upvalues.size ≤ maxUpvalues) : d.Wf := by
  have ho : d.opened = [] := by rw [Draft.opened, hs]; rfl
  refine ⟨ho ▸ ⟨trivial, fun x => ?_⟩, ?_, ?_, ?_, hup⟩
  · rw [hv]
    rfl
  · rw [hs]
    intro s hmem b hb
    obtain rfl := List.mem_singleton.mp hmem
    cases hb
  · rw [ho]
    exact Nat.zero_le _
  · rw [hu]
    exact Nat.zero_le _

/-- What a function captures is in the frame around it, or an upvalue there. -/
theorem Workspace.Wf.captures_lt (hw : w.Wf)
    (hbase : w.enclosing = [] → ∀ c ∈ w.draft.upvalues, c.index < 0x100) :
    ∀ c ∈ w.draft.upvalues, c.index < 0x100 := by
  cases hout : w.enclosing with
  | nil => exact hbase hout
  | cons e rest =>
    intro c hc
    obtain ⟨hfrom, -⟩ : CapturesOk w.draft (e :: rest) := hout ▸ hw.captures
    obtain ⟨he, hlimit⟩ := hw.enclosing e (hout ▸ List.mem_cons_self)
    have hlocals := Nat.le_trans he.held (Nat.le_trans he.fits (hlimit ▸ hw.small))
    have hups := he.upvalues
    have hx := hfrom c hc
    unfold frameRegisters at hlocals
    unfold maxUpvalues at hups
    unfold Capture.From at hx
    split at hx <;> rename_i hfind
    · obtain ⟨-, v, hv, hslot, -⟩ := hx
      obtain ⟨u, hu, -, hlt⟩ := he.tracks.stacked.latest?_local (he.tracks.visible _ ▸ hfind)
      obtain rfl := Option.some.inj (hv.symm.trans hu)
      omega
    · obtain ⟨-, c', hc', -⟩ := hx
      have hlt := (Array.getElem?_eq_some_iff.mp hc').1
      omega

theorem Draft.Recorded.of_limits (o : Options) (hparams : d.paramCount ≤ frameRegisters)
    (hpeak : d.registers.peak ≤ frameRegisters) (hups : ∀ c ∈ d.upvalues, c.index < 0x100) :
    d.Recorded o where
  params := UInt8.toNat_ofNat_of_lt' (Nat.lt_succ_of_le hparams)
  stack := UInt8.toNat_ofNat_of_lt' (Nat.lt_succ_of_le (Nat.max_le.mpr ⟨hpeak, by decide⟩))
  captures := by
    rw [Draft.finish, List.map_map]
    exact List.map_congr_left fun c hc =>
      UInt8.toNat_ofNat_of_lt' (hups c (Array.mem_toList_iff.mp hc))

/-- What a function records in bytes is exact if the parameters and, for the outermost function,
the captures it starts with fit. -/
theorem Workspace.Continues.recorded {w' : Workspace} (h : w.Continues w') (hw : w'.Wf)
    (hparams : w.draft.paramCount ≤ frameRegisters)
    (hbase : w.enclosing = [] → ∀ c ∈ w.draft.upvalues, c.index < 0x100) (o : Options) :
    w'.draft.Recorded o := by
  have hcount : w'.draft.paramCount = w.draft.paramCount :=
    congrArg (fun h => h.2.2.1) h.draft.header
  have hpeak := Nat.le_trans w'.draft.registers.peak_le (hw.limit ▸ hw.small)
  refine .of_limits o (hcount ▸ hparams) hpeak (hw.captures_lt fun hnone => ?_)
  have hnone₀ : w.enclosing = [] := List.forall₂_nil_right_iff.mp (hnone ▸ h.enclosing)
  have hsame := h.base
  rw [hnone, hnone₀] at hsame
  exact (show w'.draft.upvalues = w.draft.upvalues from hsame) ▸ hbase hnone₀

theorem writeBody_spec (hb : Lowers safe body shape) (hw : w.Wf) (hblank : w.Blank)
    (hbase : w.enclosing = [] → ∀ c ∈ w.draft.upvalues, c.index < 0x100) (lastLine : Nat) :
    Ensures safe (writeBody params body lastLine) w fun _ w' => w.Continues w' ∧ w'.Wf ∧
      ∀ S : Site, S.Ends w' → S.draft = w'.draft → w.draft.paramCount = params.length →
        WrittenIs params shape S := by
  unfold writeBody
  have hused : w.used = w.opened.length := by rw [hblank.used, hblank.opened]; rfl
  have hne : w.draft.scopes ≠ [] := by rw [hblank.scopes]; exact List.cons_ne_nil _ _
  refine (declareLocals_spec 0 params hw hused hne).bind fun _ w₁ => ?_
  rintro ⟨args, hdecl⟩
  have hs₁ : w₁.draft.scopes = [{ locals := args }] := by
    rw [hdecl.scopes, hblank.scopes, Scope.addLocals]
    simp
  have hrest₁ : w₁.AtRest :=
    ⟨hdecl.used, by rw [hs₁]; exact List.cons_ne_nil _ _, hdecl.started _ (fun i hi => by
      rw [hblank.opened] at hi
      exact (List.not_mem_nil hi).elim) (Nat.zero_le _)⟩
  refine (hb hdecl.wrote.wf hrest₁).bind fun _ w₂ => ?_
  rintro ⟨bs, new, hadv⟩
  -- there is no loop around the body, so no break is left in it
  have hbs : bs = [] := by
    by_contra hne
    have hloop := hadv.loop hne
    rw [hs₁] at hloop
    cases hloop
  subst hbs
  have hs₂ : w₂.draft.scopes = [{ locals := new ++ args }] := by
    rw [hadv.scopes, hs₁, Scope.addBreaks_nil]
    rfl
  rw [ensures_here_bind]
  refine (closeScope_plain hadv.wrote.wf hadv.rest.used hs₂ rfl _).bind fun _ w₃ => ?_
  rintro ⟨d', events, rfl, hleft⟩
  have hopened₂ : w₂.opened = new ++ args ++ Scope.allLocals [] := by
    rw [Workspace.opened, Draft.opened, hs₂]
    rfl
  have hleave := wrote_leave hadv.wrote.wf events hadv.rest.used hleft hopened₂ (by
    intro s hs
    exact (List.not_mem_nil hs).elim)
  refine (ret_spec hleave.wf lastLine 0 .none).mono fun _ w₄ => ?_
  rintro ⟨-, hmark₄, hload₄⟩
  have hwrote := ((hdecl.wrote.trans hadv.wrote).trans hleave).trans hload₄.toWrote
  refine ⟨hwrote.continues, hwrote.wf, fun S hS hd hparams => ?_⟩
  obtain ⟨⟨⟨hnames, hbody⟩, hended⟩, hret⟩ := hwrote.code S hS fun i _ _ _ => by rw [hd]
  have hmark₃ := hleft.mark events
  have hret := hret (by decide)
  rw [hmark₄, hmark₃] at hret
  have hmark : w₄.mark = w₂.mark.next := by rw [hmark₄, hmark₃]
  refine ⟨w₁.point, w₂.point, hblank.point ▸ hnames,
    hbody none (.none S), hret.1, ?_, ?_, ?_, ?_, ?_, ?_, ?_, ?_⟩
  · rw [hd]
    exact congrArg Mark.pc hmark
  · have hend : S.EndAt (w₂.draft.pc + 1) (new ++ args) := hended.endAt fun i hi v hv =>
      Nat.le_succ_of_le (hadv.rest.started i (hopened₂ ▸ List.mem_append_left _ hi) v hv)
    intro i hi
    have hi' : i ∈ new ++ args ++ Scope.allLocals [] := hopened₂ ▸ hi
    rw [show Scope.allLocals [] = [] from rfl, List.append_nil] at hi'
    exact hend i hi'
  · rw [hd, hload₄.size]
    exact hleft.size
  · rw [hd]
    exact congrArg Mark.nested hmark
  · rw [hd, ← hparams]
    exact congrArg (fun h => h.2.2.1) hwrote.continues.draft.header
  · rw [hd, hS.options]
    exact hwrote.wf.limit
  · rw [hd]
    exact hwrote.wf.draft.upvalues
  · -- the parameters are the first locals, and these have registers
    have hmax := hdecl.wrote.wf.used_le
    rw [hdecl.used, Workspace.opened, Draft.opened, hs₁] at hmax
    rw [hd]
    refine hwrote.continues.recorded hwrote.wf ?_ hbase _
    rw [hparams, ← hdecl.newest.count]
    simpa using hmax

/-- A step writes a whole function, nested in the present one. What it writes is
known at every site that the function may end up at. -/
def Writes (safe : Prop) (write : LowerM Unit) (written : Site → Prop) : Prop :=
  ∀ {w : Workspace}, w.Wf → Ensures safe write w.enter fun _ w' =>
    w'.options = w.options ∧ List.Forall₂ Draft.Touched w.enter.enclosing w'.enclosing ∧
      CapturesOk w'.draft w'.enclosing ∧
      (outermost w'.draft w'.enclosing).upvalues = (outermost w.draft w.enclosing).upvalues ∧
      ∀ S : Site, S.Ends w' → S.draft = w'.draft → written S

theorem writeFunction_writes (hb : Lowers safe body shape) (isVararg : Bool) (line lastLine : Nat) :
    Writes safe (writeFunction params isVararg line lastLine body) (WrittenIs params shape) := by
  intro w hw
  unfold writeFunction
  rw [ensures_update_bind]
  refine (writeBody_spec hb (w := { w.enter with draft := { w.enter.draft with
      line, lineDefined := line, lastLineDefined := lastLine
      paramCount := params.length, isVararg } })
    ?_ ⟨rfl, rfl, rfl⟩ (fun h => by cases h) lastLine).mono fun _ w' => ?_
  · refine ⟨.blank rfl rfl rfl (Nat.zero_le _), fun e he => ?_, ⟨fun c hc => ?_, hw.captures⟩,
      rfl, hw.small⟩
    · rcases List.mem_cons.mp he with rfl | hmem
      · exact ⟨hw.draft, hw.limit⟩
      · exact hw.enclosing e hmem
    · exact (Array.not_mem_empty c hc).elim
  · rintro ⟨hc, hwf, hS⟩
    exact ⟨hc.options, hc.enclosing, hwf.captures, hc.base, fun S hends hd => hS S hends hd rfl⟩

theorem ensures_nested {α : Type} {m : LowerM α} {Q : Draft × α → Workspace → Prop} :
    Ensures safe (nested m) w Q ↔ Ensures safe m w.enter fun x w' => Q (w'.draft, x) w'.leave := by
  unfold Ensures nested
  cases m w.enter with
  | ok x w' => rfl
  | error e w' => cases e <;> rfl

/-- The upvalues of a nested function, in the finished function around it. -/
theorem Capture.From.fromFrame {c : Capture} {F : Frame} (h : c.From d) (hd : d.Wf)
    (hb : d.Becomes F.draft) (ho : F.opened = d.opened) : c.FromFrame F := by
  unfold Capture.From at h
  unfold Capture.FromFrame
  split at h <;> rename_i hx
  · obtain ⟨hin, v, hv, hslot, hcap⟩ := h
    obtain ⟨v', hv', hdecl, hcap'⟩ := Frame.local?_of_visible hd hb ho hx hv
    rw [hv']
    exact ⟨hin, hslot.symm.trans (congrArg Local.slot hdecl).symm, hcap' hcap⟩
  · obtain ⟨hin, c', hc', -⟩ := h
    rw [Frame.local?_of_not_visible hd hb ho hx]
    exact ⟨hin, (Array.getElem?_eq_some_iff.mp (hb.upvalues _ _ hc')).1⟩

/-- The function around a nested one is back, and the nested one is known. -/
theorem nested_spec (hf : Writes safe write written) (hw : w.Wf) :
    Ensures safe (nested write) w fun r w' => w'.used = w.used ∧ w'.mark = w.mark ∧
      Loads [] w w' fun S =>
        let inner : Site := ⟨S.options, r.1, ⟨S.draft, w.opened⟩ :: S.outer⟩
        (∀ c ∈ r.1.upvalues, c.FromFrame ⟨S.draft, w.opened⟩) ∧ written inner ∧
          inner.LeftBy write := by
  refine ensures_nested.mpr ((hf hw).run.mono fun _ w₁ => ?_)
  rintro ⟨⟨hoptions, henclosing, hcaptures, hbase, hwritten⟩, hrun⟩
  obtain ⟨options, inner, enclosing, events⟩ := w₁
  cases henclosing with
  | @cons _ d _ ds htouch hrest =>
    have hsteady : w.Steady w.draft.pc ⟨options, d, ds, events⟩ :=
      ⟨hoptions, htouch.steady _, hrest, fun _ => hcaptures.2, hbase⟩
    have hregs : d.registers = w.draft.registers := by rw [htouch.rest]
    have hwf := hw.steady hsteady (hregs ▸ hw.held) (hregs ▸ hw.draft.fits)
    refine ⟨congrArg Registers.used hregs, ?_, .of_steady hsteady hwf fun S hS _ => ⟨?_, ?_, ?_⟩⟩
    · show Mark.mk d.pc d.nested.size = _
      rw [htouch.rest]
      rfl
    · intro c hc
      exact (hcaptures.1 c hc).fromFrame hwf.draft hS.draft htouch.opened.symm
    · have hinner : Draft.Becomes inner inner := (Draft.Steady.refl 0 inner).becomes
      exact hwritten ⟨S.options, inner, ⟨S.draft, w.opened⟩ :: S.outer⟩
        ⟨hS.options, hinner, .cons ⟨hS.draft, htouch.opened.symm⟩ hS.outer, hS.base⟩ rfl
    · have hback := hS.back hsteady.continues
      exact ⟨w, _, hback.options.symm, .cons ⟨hback.draft, rfl⟩ hback.outer, hrun, rfl⟩

/-- A step makes a closure of a function in a register. -/
def LoadsFunction (safe : Prop) (load : Nat → LowerM Unit) (written : Site → Prop) : Prop :=
  ∀ {w : Workspace} {a : Nat}, w.Wf → a < w.used → Ensures safe (load a) w fun _ w' =>
    w'.used = w.used ∧ w'.draft.pc = w.draft.pc + 1 ∧
      Loads [] w w' fun S => FunctionIs S w.opened written a w.mark w'.mark

theorem loadFunction_loads (hf : Writes safe write written) (lastLine : Nat) :
    LoadsFunction safe (loadFunction lastLine write) fun S =>
      written S ∧ S.LeftBy write := by
  intro w a hw ha
  unfold loadFunction
  refine (nested_spec hf hw).bind fun r w₁ => ?_
  rintro ⟨hused₁, hmark₁, hload₁⟩
  obtain ⟨inner, _⟩ := r
  have hnested : w₁.draft.nested.size = w.mark.nested := congrArg Mark.nested hmark₁
  dsimp only
  rw [ensures_view_bind, finishFunction, bind_assoc, ensures_options_bind, bind_assoc,
    ensures_record_bind, ensures_pure_bind, ensures_update_bind, Emit.closure]
  -- the prototype is added to those of the function around it
  have hadd : Loads [] w₁ { w₁ with
      draft := { w₁.draft with nested := w₁.draft.nested.push (inner.finish w₁.options) }
      events := w₁.events.push (.functionFinished (inner.finish w₁.options)) }
      fun S => S.draft.nested[w.mark.nested]? = some (inner.finish S.options) := by
    have hdraft : w₁.draft.Steady w₁.draft.pc
        { w₁.draft with nested := w₁.draft.nested.push (inner.finish w₁.options) } :=
      { Draft.Steady.refl w₁.draft.pc w₁.draft with nested := .push _ _ }
    have hsteady := Workspace.steady_of_draft
      (w₁.events.push (.functionFinished (inner.finish w₁.options))) hdraft rfl
    refine .of_steady hsteady (hload₁.wf.steady hsteady hload₁.wf.held hload₁.wf.draft.fits)
      fun S hS _ => ?_
    rw [hS.options, ← hnested]
    exact hS.draft.nested _ _ Array.getElem?_push_size
  refine (emit_written hadd.wf lastLine (.abx .closure a _)).bind fun _ w₂ => ?_
  rintro ⟨-, hused₂, hmark₂, -, hload₂⟩
  have hload := (hload₁.trans hadd).trans hload₂
  have hpc : w₁.draft.pc = w.mark.pc := congrArg Mark.pc hmark₁
  refine ⟨hused₂.trans hused₁, ?_, hload.mono fun S hS ⟨⟨⟨hup, hwritten⟩, hproto⟩, hcode⟩ =>
    ⟨inner, hproto, ?_, ?_, hup, hwritten⟩⟩
  · exact (congrArg Mark.pc hmark₂).trans (congrArg (· + 1) hpc)
  · have hcode := hcode (Site.keeps_abx (hw.reg_lt ha) (.inr rfl))
    rw [← hnested]
    exact ⟨hpc ▸ hcode.has, rfl, hcode.kept⟩
  · rw [hmark₂]
    show Mark.mk (w₁.draft.pc + 1) (w₁.draft.nested.push _).size = _
    rw [Array.size_push, hpc, hnested]

theorem declareFunction_lowers {x : String} {load : Nat → LowerM Unit}
    (hf : LoadsFunction safe load written) (line : Nat) :
    Lowers safe (do
      setLine line
      let r ← declareLocal x ((← here) + 1)
      load r) (DeclareFunctionIs x written) := by
  intro w hw hrest
  refine (setLine_spec hw line).bind fun _ w₁ => ?_
  rintro ⟨hused₁, hmark₁, hload₁⟩
  have hrest₁ := hrest.loads hload₁ hused₁
  rw [ensures_here_bind]
  refine (declareLocal_spec hload₁.wf hrest₁.used hrest₁.scopes x _).bind fun r w₂ => ?_
  rintro ⟨rfl, hdecl⟩
  have hopened₂ : w₂.opened = [w₁.draft.locals.size] ++ w₁.opened := by
    show Scope.allLocals w₂.draft.scopes = _
    rw [hdecl.scopes, Scope.allLocals_addLocals _ hrest₁.scopes]
    rfl
  have hr : w₁.opened.length < w₂.used := by
    rw [hdecl.used, hopened₂]
    exact Nat.lt_succ_self _
  refine (hf hdecl.wrote.wf hr).mono fun _ w₃ => ?_
  rintro ⟨hused₃, hpc₃, hload₃⟩
  have hpc₂ : w₂.draft.pc = w₁.draft.pc := congrArg Mark.pc hdecl.mark
  have hpc₁ : w₁.draft.pc = w.draft.pc := congrArg Mark.pc hmark₁
  have hscopes : w₃.draft.scopes = Scope.addLocals [w₁.draft.locals.size] w.draft.scopes := by
    rw [hload₃.scopes, hdecl.scopes, hload₁.scopes]
  have hpoint₁ : w₁.point = w.point := by rw [hload₁.point, hmark₁]; rfl
  refine ⟨[], [w₁.draft.locals.size], ?_, ?_, ⟨?_, ?_, ?_⟩, fun _ hb => (List.not_mem_nil hb).elim,
    .nil, fun h => absurd rfl h⟩
  · refine ((hload₁.toWrote.trans hdecl.wrote).trans hload₃.toWrote).mono
      fun S _ ⟨⟨_, hname⟩, hfun⟩ exit _ => ⟨w₂.point, w₃.mark, ?_, ?_, hload₃.point⟩
    · rw [hpoint₁, hpc₁] at hname
      exact hname
    · rw [hload₁.opened, hdecl.mark, hmark₁] at hfun
      exact hfun
  · rw [hscopes, Scope.addBreaks_nil]
  · rw [hused₃, hload₃.opened, hdecl.used]
  · rw [← List.length_pos_iff, hscopes, Scope.length_addLocals, List.length_pos_iff]
    exact hrest.scopes
  · -- the function starts to be visible where its closure has been made
    rw [hpc₃, hpc₂]
    exact (hdecl.started _ (hrest₁.started.mono (Nat.le_succ _)) le_rfl).loads hload₃

end LuaLowering
