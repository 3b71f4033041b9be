import LuaLowering.Proofs.Lowering.Leave

/-!
# Lowering statements

Each function that lowers a statement writes the code that its shape describes,
provided its parts do. What the parts are lowered to matters nowhere: blocks,
branches and loops are built from the contracts of their bodies alone.
-/

namespace LuaLowering

open LowerM

variable {safe : Prop} {w : Workspace} {w' : Workspace} {bs : List OpenBreak} {new : List Nat}
  {shape : StatShape} {outer : List Scope} {S : Site} {names : List String} {values : List Source}
  {parts : List Part}

/-! ## Blocks -/

theorem lowerSkip_lowers : Lowers safe (pure ()) fun _ _ P P' => P' = P := by
  intro w hw hrest
  exact ⟨[], [], .of_loads hrest (.refl hw) rfl fun _ _ _ _ => rfl⟩

theorem lowerSeq_lowers {first second : LowerM Unit} {s₁ s₂ : StatShape}
    (h₁ : Lowers safe first s₁) (h₂ : Lowers safe second s₂) :
    Lowers safe (do first; second) (SeqIs s₁ s₂) := by
  intro w hw hrest
  refine (h₁ hw hrest).bind fun _ w₁ => ?_
  rintro ⟨bs₁, new₁, hadv₁⟩
  refine (h₂ hadv₁.wrote.wf hadv₁.rest).mono fun _ w₂ => ?_
  rintro ⟨bs₂, new₂, hadv₂⟩
  exact ⟨_, _, (hadv₁.trans hadv₂).mono fun S _ exit ⟨hfirst, hsecond⟩ =>
    ⟨w₁.point, hfirst, hsecond⟩⟩

/-- The scopes after the body of a scope that is not a loop. -/
theorem Advances.scopes_plain (h : Advances w w' bs new shape)
    (hs : w.draft.scopes = .opened false :: outer) :
    w'.draft.scopes = { locals := new } :: Scope.addBreaks bs outer := by
  rw [h.scopes, hs, Scope.addLocals, Scope.addBreaks_cons_plain rfl, Scope.opened]
  simp

/-- The scopes after the body of a loop. -/
theorem Advances.scopes_loop (h : Advances w w' bs new shape)
    (hs : w.draft.scopes = .opened true :: outer) :
    w'.draft.scopes = { locals := new, breaks := some bs } :: outer := by
  rw [h.scopes, hs, Scope.addLocals, Scope.addBreaks_cons_loop rfl, Scope.opened]
  simp

/-- A break that leaves one scope more. -/
theorem Exit.Lands.inside {e : Exit} {b : OpenBreak} {depth level : Nat} (hdepth : depth ≤ b.depth)
    (h : e.Lands S (Scope.raise depth level b)) : (e.inside level).Lands S b := by
  rw [Scope.raise_of_le hdepth] at h
  unfold Exit.Lands at h ⊢
  rw [Exit.inside, ← joinClose_assoc]
  exact h

theorem Site.Ended.endAt {d : Draft} {ended : List Nat} {endPc : Nat}
    (h : S.Ended d ended (endsAt endPc))
    (hstart : ∀ i ∈ ended, ∀ v, d.locals[i]? = some v → v.startPc ≤ endPc) :
    S.EndAt endPc ended := by
  intro i hi
  obtain ⟨v, hv, hS⟩ := h i hi
  exact ⟨_, hS, Nat.max_eq_left (hstart i hi v hv)⟩

theorem lowerScoped_lowers {body : LowerM Unit} (hb : Lowers safe body shape) (lastLine : Nat) :
    Lowers safe (lowerScoped body lastLine) (ScopedIs shape) := by
  intro w hw hrest
  unfold lowerScoped
  refine (openScope_spec hw false).bind fun _ w₀ => ?_
  rintro ⟨hscopes₀, hsame₀⟩
  have hrest₀ := hrest.rescoped hsame₀ (by rw [hscopes₀]; exact List.cons_ne_nil _ _)
  refine (hb hsame₀.wrote.wf hrest₀).bind fun _ w₁ => ?_
  rintro ⟨bs, new, hadv⟩
  have hs₁ := hadv.scopes_plain hscopes₀
  refine (closeCaptured_spec hadv.wrote.wf hs₁ lastLine).bind fun _ w₂ => ?_
  rintro ⟨hused₂, hlocals₂, hload₂⟩
  have hrest₂ := hadv.rest.loads hload₂ hused₂
  have hs₂ : w₂.draft.scopes = { locals := new } :: Scope.addBreaks bs w.draft.scopes := by
    rw [hload₂.scopes, hs₁]
  rw [ensures_here_bind]
  refine (closeScope_plain hload₂.wf hrest₂.used hs₂ rfl _).mono fun _ w₃ => ?_
  rintro ⟨d', events, rfl, hleft⟩
  have hlevel : w₂.draft.levelOf new = w₁.draft.levelOf new := by
    rw [Draft.levelOf, hlocals₂, Draft.levelOf]
  dsimp only at hleft
  rw [Scope.length_addBreaks, Scope.raiseBreaks_addBreaks _ _ hw.draft.breaks] at hleft
  have hdepth₀ : ∀ b ∈ bs, b.depth = w.draft.scopes.length := by
    intro b hb
    have := hadv.depth b hb
    rw [hscopes₀, List.length_cons] at this
    omega
  -- the breaks as they are pending outside the scope
  generalize hraised : bs.map (Scope.raise w.draft.scopes.length (w₂.draft.levelOf new)) = raised
    at hleft
  have hdepth : ∀ b ∈ raised, b.depth + 1 = w.draft.scopes.length := by
    intro b hb
    obtain ⟨c, hc, rfl⟩ := List.mem_map.mp (hraised ▸ hb)
    rw [Scope.raise_of_le (Nat.le_of_eq (hdepth₀ c hc).symm)]
    exact Nat.sub_add_cancel (List.length_pos_iff.mpr hrest.scopes)
  have hpcs : raised.map (·.pc) = bs.map (·.pc) := by
    rw [← hraised, List.map_map]
    exact List.map_congr_left fun b _ => Scope.pc_raise _ _ b
  have hbelow : Scope.BreaksBelow (Scope.addBreaks raised w.draft.scopes).length
      (Scope.addBreaks raised w.draft.scopes) := by
    rw [Scope.length_addBreaks]
    exact hw.draft.breaks.addBreaks fun b hb => by
      have := hdepth b hb
      omega
  have hopened₂ : w₂.opened = new ++ Scope.allLocals (Scope.addBreaks raised w.draft.scopes) := by
    rw [Workspace.opened, Draft.opened, hs₂, Scope.allLocals_addBreaks,
      ← Scope.allLocals_addBreaks bs w.draft.scopes]
    rfl
  have hleave := wrote_leave hload₂.wf events hrest₂.used hleft hopened₂ hbelow
  have hwrote := ((hsame₀.wrote.trans hadv.wrote).trans hload₂.toWrote).trans hleave
  have hscopes : d'.scopes = Scope.addBreaks raised w.draft.scopes := by rw [hleft.rest]
  have hopened : d'.opened = w.opened := by
    rw [Draft.opened, hscopes]
    exact Scope.allLocals_addBreaks _ _
  refine ⟨raised, [], ?_, ?_, ?_, hdepth, ?_, ?_⟩
  · rw [hpcs]
    refine (hwrote.congr fun i => by simp).mono fun S _ h exit hexit => ?_
    obtain ⟨⟨⟨-, hbody⟩, hclose⟩, hended⟩ := h
    have hS : S.level new = w₁.draft.levelOf new := hended.level.trans hlevel
    have hmark := hleft.mark events
    refine ⟨w₁.point, new, ?_, ?_, ?_, ?_, hopened, ?_⟩
    · rw [← hsame₀.point, hS]
      refine hbody _ ⟨fun e he => ?_, fun b hb => ?_⟩
      · obtain ⟨e, he', rfl⟩ := Option.map_eq_some_iff.mp he
        exact Nat.lt_succ_of_le (joinClose_le (Nat.le_of_lt_succ (scope_level_lt hadv.wrote.wf hs₁))
          (Nat.le_of_lt_succ (hexit.close e he')))
      · obtain ⟨e, rfl, hland⟩ := hexit.lands _ (hraised ▸ List.mem_map_of_mem hb)
        exact ⟨_, rfl, (hlevel ▸ hland).inside (Nat.le_of_eq (hdepth₀ b hb).symm)⟩
    · show w₁.opened = new ++ w.opened
      rw [hadv.opened hrest₀.scopes, hsame₀.opened]
    · show ClosesTo S _ w₁.mark (Workspace.mark _)
      rw [hS, hmark]
      exact hclose
    · show S.EndAt (Workspace.mark _).pc new
      rw [hmark]
      refine hended.endAt fun i hi v hv => hrest₂.started i ?_ v hv
      rw [hopened₂]
      exact List.mem_append_left _ hi
    · show d'.locals.size = w₁.draft.locals.size
      rw [hleft.size, hload₂.size]
  · rw [Scope.addLocals_nil]
    exact hscopes
  · refine hrest.back hw hwrote ?_ hopened ?_
    · show d'.registers.used = d'.opened.length
      rw [hopened, hleft.rest, Scope.allLocals_addBreaks]
      rfl
    · show d'.scopes ≠ []
      rw [hscopes, ← List.length_pos_iff, Scope.length_addBreaks]
      exact List.length_pos_iff.mpr hrest.scopes
  · rw [← hraised, List.pairwise_map]
    simpa only [Scope.pc_raise] using hadv.order
  · intro hne
    have hbs : bs ≠ [] := by
      rintro rfl
      exact hne hraised.symm
    have hloop := hadv.loop hbs
    rw [hscopes₀] at hloop
    exact hloop

/-! ## Declarations -/

/-- A declaration: the locals it adds are the next ones of the table. -/
theorem lowerDeclare_spec (hn : safe → names.length < 0x7fffffff)
    (hv : Sources.Meet safe values parts) (hw : w.Wf) (hrest : w.AtRest) (line : Nat) :
    Ensures safe (lowerDeclare names values line) w fun _ w' => ∃ new,
      Advances w w' [] new (DeclareIs names parts) ∧ Newest names.length new w w' ∧
        (names ≠ [] → ∃ v, w'.draft.locals[w.draft.locals.size]? = some v ∧
          v.slot = w.opened.length) := by
  unfold lowerDeclare
  refine (setLine_spec hw line).bind fun _ w₁ => ?_
  rintro ⟨hused₁, hmark₁, hload₁⟩
  rw [ensures_usedRegisters_bind]
  refine (loadAdjusted_spec hn hv hload₁.wf line).bind fun _ w₂ => ?_
  rintro ⟨hused₂, hload₂⟩
  have hheld : w₂.opened.length ≤ w₁.used := by rw [hload₂.opened]; exact hload₁.wf.held
  refine (freeRegistersTo_spec hload₂.wf hheld (by omega)).bind fun _ w₃ => ?_
  rintro ⟨hused₃, hmark₃, hload₃⟩
  have hload := (hload₁.trans hload₂).trans hload₃
  have hrest₃ := hrest.loads hload (hused₃.trans hused₁)
  rw [ensures_here_bind]
  refine (declareLocals_spec w₃.draft.pc names hload₃.wf hrest₃.used hrest₃.scopes).mono
    fun _ w₄ => ?_
  rintro ⟨new, hdecl⟩
  refine ⟨new, ?_, ⟨?_, hdecl.newest.count, fun i => ?_⟩, ?_⟩
  rotate_left
  · rw [← hload.size]
    exact hdecl.newest.size
  · rw [← hload.size]
    exact hdecl.newest.mem i
  · rw [← hload.size, ← hload.opened]
    exact hdecl.first
  have hpc : w₄.draft.pc = w₃.draft.pc := congrArg Mark.pc hdecl.mark
  exact
    { wrote := (hload.toWrote.trans hdecl.wrote).mono
        fun S _ ⟨⟨⟨_, hvalues⟩, _⟩, hnames⟩ exit _ => by
        rw [hload₁.opened, hmark₁, hused₁, hrest.used] at hvalues
        rw [hload.point, hmark₃, show w₃.draft.pc = w₂.draft.pc from congrArg Mark.pc hmark₃]
          at hnames
        exact ⟨_, hvalues, hnames⟩
      scopes := by rw [hdecl.scopes, hload.scopes, Scope.addBreaks_nil]
      rest :=
        { used := hdecl.used
          scopes := by
            rw [← List.length_pos_iff, hdecl.scopes, Scope.length_addLocals, List.length_pos_iff]
            exact hrest₃.scopes
          started := hpc ▸ hdecl.started _ hrest₃.started le_rfl }
      depth := fun _ hb => (List.not_mem_nil hb).elim
      order := .nil
      loop := fun h => absurd rfl h }

theorem lowerDeclare_lowers (hn : safe → names.length < 0x7fffffff)
    (hv : Sources.Meet safe values parts) (line : Nat) :
    Lowers safe (lowerDeclare names values line) (DeclareIs names parts) := by
  intro w hw hrest
  refine (lowerDeclare_spec hn hv hw hrest line).mono fun _ w' => ?_
  rintro ⟨new, hadv, -⟩
  exact ⟨[], new, hadv⟩

end LuaLowering
