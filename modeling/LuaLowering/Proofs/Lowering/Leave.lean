import LuaLowering.Proofs.Lowering.Scope

/-!
# Leaving scopes

Leaving a scope ends its locals, and from then on nothing about them changes, so
here the ends and close levels of the finished function are known. `Draft.Left`
says what may have happened to the locals on the way; it allows for loops whose
hidden locals are prolonged after their scope was left.

The breaks of a loop are aimed while its scope is half taken apart. The code and
the scopes do not depend on each other, so that is the same as aiming them first
(`patchBreaks_spec`).
-/

namespace LuaLowering

open LowerM

variable {safe : Prop} {w : Workspace} {d d' : Draft} {is ended : List Nat} {s : Scope}
  {outer : List Scope} {ends : Nat → Local → Nat} {bs : List OpenBreak} {w₀ : Workspace}

/-! ## Close levels -/

/-- A close level does not depend on where locals end. -/
theorem closeLevelOf_map_ended (vars : List Local) :
    closeLevelOf (vars.map fun v => { v with endPc := 0 }) = closeLevelOf vars := by
  unfold closeLevelOf
  rw [List.any_map, List.filter_map, List.map_map]
  rfl

theorem Draft.levelOf_congr (h : ∀ i ∈ is, d'.locals[i]?.map (fun v => { v with endPc := 0 }) =
      d.locals[i]?.map fun v => { v with endPc := 0 }) : d'.levelOf is = d.levelOf is := by
  unfold Draft.levelOf
  rw [← closeLevelOf_map_ended, ← closeLevelOf_map_ended (is.filterMap fun i => d.locals[i]?),
    List.map_filterMap, List.map_filterMap]
  refine congrArg closeLevelOf (List.filterMap_congr fun i hi => ?_)
  exact h i hi

theorem localsAt_spec (his : ∀ i ∈ is, i < w.draft.locals.size) :
    Ensures safe (localsAt is) w fun vars w' =>
      w' = w ∧ vars = is.filterMap fun i => w.draft.locals[i]? := by
  induction is with
  | nil => exact ⟨rfl, rfl⟩
  | cons i rest ih =>
    have hv := Array.getElem?_eq_getElem (his i List.mem_cons_self)
    rw [localsAt, localAt, bind_assoc, ensures_view_bind, hv, ensures_pure_bind]
    refine (ih fun j hj => his j (List.mem_cons_of_mem _ hj)).bind fun vars w' => ?_
    rintro ⟨rfl, rfl⟩
    refine ⟨rfl, ?_⟩
    rw [List.filterMap_cons, hv]

theorem scope_locals_lt (hw : w.Wf) (hs : w.draft.scopes = s :: outer) :
    ∀ i ∈ s.locals, i < w.draft.locals.size := by
  intro i hi
  refine hw.draft.tracks.stacked.lt_size i ?_
  rw [Draft.opened, hs, List.flatMap_cons]
  exact List.mem_append_left _ hi

/-- The level of a scope fits into the field of the jump that closes it. -/
theorem scope_level_lt (hw : w.Wf) (hs : w.draft.scopes = s :: outer) :
    w.draft.levelOf s.locals < 0x100 := by
  rcases w.draft.levelOf_eq s.locals with hzero | ⟨i, hi, v, hv, -, hlevel⟩
  · omega
  · have hmem : i ∈ w.draft.opened := by
      rw [Draft.opened, hs, List.flatMap_cons]
      exact List.mem_append_left _ hi
    obtain ⟨u, hu, hlt⟩ := hw.draft.tracks.stacked.exists_local i hmem
    obtain rfl := Option.some.inj (hv.symm.trans hu)
    have hheld := hw.held
    have hmax : w.used ≤ 255 := hw.used_le
    unfold Workspace.opened at hheld
    omega

theorem closeLevel_spec (hw : w.Wf) (hs : w.draft.scopes = s :: outer) :
    Ensures safe closeLevel w fun n w' => w' = w ∧ n = w.draft.levelOf s.locals := by
  unfold closeLevel
  rw [ensures_view_bind, hs]
  refine (localsAt_spec (scope_locals_lt hw hs)).bind fun vars w' => ?_
  rintro ⟨rfl, rfl⟩
  exact ⟨rfl, rfl⟩

/-- The jump that closes what a scope's locals need, if they need it. -/
theorem closeCaptured_spec (hw : w.Wf) (hs : w.draft.scopes = s :: outer) (line : Nat) :
    Ensures safe (closeCaptured line) w fun _ w' =>
      w'.used = w.used ∧ w'.draft.locals = w.draft.locals ∧
        Loads [] w w' fun S => ClosesTo S (w.draft.levelOf s.locals) w.mark w'.mark := by
  unfold closeCaptured
  refine (closeLevel_spec hw hs).bind fun n w' => ?_
  rintro ⟨rfl, rfl⟩
  unfold ClosesTo
  split
  · next hpos =>
    rw [Emit.jump, Emit.asbx, if_pos (canBias_of_le (Nat.zero_le _))]
    refine ((emit_written hw line (.asbx .jmp _ 0)).and (emit_locals line _)).bind fun _ w₁ => ?_
    rintro ⟨⟨-, hused, hmark, -, hload⟩, hlocals⟩
    refine ⟨hused, hlocals, hload.mono fun S _ h => ?_⟩
    rw [if_neg (by omega), hmark]
    exact h (Site.keeps_asbx (scope_level_lt hw hs) (Nat.zero_le _))
  · next hpos =>
    exact ⟨rfl, rfl, (Loads.refl hw).mono fun S _ _ => by rw [if_pos (by omega)]⟩

/-! ## Ending locals -/

/-- A scope was left: some locals have ended, each at its own position, and
nothing else became of them. -/
structure Draft.Left (outer : List Scope) (ended : List Nat) (ends : Nat → Local → Nat)
    (d d' : Draft) : Prop where
  rest : d' = { d with
    scopes := outer
    registers := { d.registers with used := (Scope.allLocals outer).length }
    locals := d'.locals
    visible := d'.visible }
  tracks : d'.Tracks (Scope.allLocals outer)
  size : d'.locals.size = d.locals.size
  entry : ∀ (i : Nat) (v : Local), d.locals[i]? = some v →
    d'.locals[i]? = some (if i ∈ ended then { v with endPc := ends i v } else v)

theorem Draft.Left.mark (h : Draft.Left outer ended ends w.draft d') (events : Array Event) :
    ({ w with draft := d', events } : Workspace).mark = w.mark := by
  rw [h.rest]
  rfl

/-- The locals of a list, taken off one by one. -/
theorem endLocals_spec (endPc : Nat) {js : List Nat} :
    ∀ {w : Workspace}, w.draft.Tracks (is ++ js) → w.used = (is ++ js).length →
      Ensures safe (endLocals endPc is) w fun _ w' => ∃ d', w' = { w with draft := d' } ∧
        d' = { w.draft with
          registers := { w.draft.registers with used := js.length }
          locals := d'.locals
          visible := d'.visible } ∧
        d'.Tracks js ∧ d'.locals.size = w.draft.locals.size ∧
        ∀ (i : Nat) (v : Local), w.draft.locals[i]? = some v → d'.locals[i]? =
          some (if i ∈ is then { v with endPc := max endPc v.startPc } else v) := by
  induction is with
  | nil =>
    intro w ht hused
    refine ⟨w.draft, rfl, ?_, ht, rfl, fun i v hv => ?_⟩
    · have hregs : ({ w.draft.registers with used := js.length } : Registers) =
          w.draft.registers := by rw [← show w.used = js.length from hused]
      rw [hregs]
    · rw [if_neg List.not_mem_nil, hv]
  | cons i rest ih =>
    intro w ht hused
    obtain ⟨v, hv, hslot⟩ : ∃ v, w.draft.locals[i]? = some v ∧ v.slot = (rest ++ js).length := by
      obtain ⟨u, hu, hslot, -⟩ := ht.stacked.1
      obtain ⟨v, hv, rfl⟩ := Draft.exists_of_declarationAt? hu
      exact ⟨v, hv, hslot⟩
    rw [endLocals, endLocal, localAt, bind_assoc, bind_assoc, ensures_view_bind, hv,
      ensures_pure_bind, bind_assoc, ensures_update_bind, giveBack, bind_assoc, ensures_view_bind]
    have hrelease : (w.draft.endLocal i v endPc).registers.release v.slot =
        .ok { w.draft.registers with used := v.slot } := by
      rw [Registers.release, if_pos]
      · rfl
      · show v.slot + 1 = w.used
        rw [hused, hslot]
        rfl
    dsimp only
    rw [hrelease, ensures_update_bind]
    refine (ih (w := { w with draft := { w.draft.endLocal i v endPc with
        registers := { w.draft.registers with used := v.slot } } })
      ((ht.endLocal hv endPc).congr rfl fun _ _ => rfl) hslot).mono fun _ w' => ?_
    rintro ⟨d', rfl, hrest, htracks, hsize, hentry⟩
    refine ⟨d', rfl, hrest, htracks, hsize.trans Array.size_setIfInBounds, fun j u hu => ?_⟩
    have hlt : i < w.draft.locals.size := (Array.getElem?_eq_some_iff.mp hv).1
    by_cases hij : i = j
    · subst hij
      rw [hv] at hu
      obtain rfl := Option.some.inj hu
      have hfirst := hentry i { v with endPc := max endPc v.startPc }
        (Array.getElem?_setIfInBounds_self_of_lt hlt)
      rw [hfirst, if_pos List.mem_cons_self]
      split <;> rfl
    · have hkeep := hentry j u ((Array.getElem?_setIfInBounds_ne hij).trans hu)
      have hmem : j ∈ i :: rest ↔ j ∈ rest := by
        rw [List.mem_cons]
        exact or_iff_right fun h => hij h.symm
      rw [hkeep, if_congr hmem rfl rfl]

/-- What is known in the finished function about locals that have ended. -/
def Site.Ended (S : Site) (d : Draft) (ended : List Nat) (ends : Nat → Local → Nat) : Prop :=
  ∀ i ∈ ended, ∃ v, d.locals[i]? = some v ∧
    S.draft.locals[i]? = some { v with endPc := ends i v }

theorem wrote_leave (hw : w.Wf) (events : Array Event) (hused : w.used = w.opened.length)
    (h : Draft.Left outer ended ends w.draft d')
    (hopened : w.opened = ended ++ Scope.allLocals outer)
    (hbreaks : Scope.BreaksBelow outer.length outer) :
    Wrote [] w { w with draft := d', events } fun S => S.Ended w.draft ended ends := by
  have hopen' : d'.opened = Scope.allLocals outer := by rw [h.rest]; rfl
  have hscopes : d'.scopes = outer := by rw [h.rest]
  have hup : d'.upvalues = w.draft.upvalues := by rw [h.rest]
  have hstacked : w.draft.Stacked (ended ++ Scope.allLocals outer) :=
    hopened ▸ (show w.draft.Stacked w.opened from hw.draft.tracks.stacked)
  have hlen : (Scope.allLocals outer).length ≤ w.used := by
    rw [hused, hopened, List.length_append]
    omega
  have hbecomes : w.draft.Becomes d' := by
    refine ⟨?_, ?_, ?_, ?_, ?_, fun i v hv => ?_, fun i hi => Or.inl ?_⟩
    · rw [h.rest]; rfl
    · exact Nat.le_of_eq (by rw [h.rest])
    · rw [h.rest]; exact .refl _
    · rw [hup]; exact .refl _
    · rw [h.rest]; exact .refl _
    · refine ⟨_, h.entry i v hv, ?_, ?_, fun hi => if_neg fun hmem => hi ?_⟩
      · split <;> rfl
      · split <;> exact id
      · show i ∈ w.opened
        rw [hopened]
        exact List.mem_append_left _ hmem
    · rw [hopen'] at hi
      show i ∈ w.opened
      rw [hopened]
      exact List.mem_append_right _ hi
  have hwf : d'.Wf :=
    { tracks := hopen' ▸ h.tracks
      breaks := hscopes ▸ hbreaks
      held := Nat.le_of_eq (by rw [hopen', h.rest])
      fits := by
        rw [h.rest]
        exact Nat.le_trans hlen hw.draft.fits
      upvalues := hup ▸ hw.draft.upvalues }
  have hpc : d'.pc = w.draft.pc := by rw [h.rest]; rfl
  exact
    { continues := Workspace.continues_of_draft _ hbecomes hup
      wf := hw.of_draft _ hwf hbecomes hup
      pc := Nat.le_of_eq hpc.symm
      below := fun _ _ => by rw [h.rest]
      within := fun _ h => (List.not_mem_nil h).elim
      code := fun S hS _ i hi => by
        have hlt : i < w.draft.locals.size := hstacked.lt_size i (List.mem_append_left _ hi)
        have hv := Array.getElem?_eq_getElem hlt
        have hleft := h.entry i _ hv
        rw [if_pos hi] at hleft
        obtain ⟨v', hv', -, -, hkeep⟩ := hS.draft.locals i _ hleft
        have hout : i ∉ d'.opened := by
          rw [hopen']
          exact Draft.not_mem_of_stacked hstacked i hi
        exact ⟨_, hv, hkeep hout ▸ hv'⟩ }

theorem Site.Ended.level {S : Site} (h : S.Ended d ended ends) :
    S.level ended = d.levelOf ended := by
  refine Draft.levelOf_congr fun i hi => ?_
  obtain ⟨v, hv, hS⟩ := h i hi
  rw [hv, hS]
  rfl

/-! ## Aiming the breaks of a loop -/

/-- A workspace in which the scopes are already those further out. -/
def Workspace.popped (w : Workspace) (outer : List Scope) : Workspace :=
  { w with draft := { w.draft with scopes := outer } }

theorem patchBreaks_spec {close target : Nat} (outer : List Scope) :
    ∀ {w : Workspace} {L : Site → Prop}, Wrote (bs.map (·.pc)) w₀ w L →
      (bs.map (·.pc)).Nodup → target ≤ w.draft.pc →
      Ensures safe (patchBreaks close target bs) (w.popped outer) fun _ w' =>
        ∃ w₁, w' = w₁.popped outer ∧ Recoded w w₁ ∧
          Wrote [] w₀ w₁ fun S => L S ∧ ∀ b ∈ bs, (Exit.mk target close).Lands S b := by
  induction bs with
  | nil =>
    intro w L hwrote _ _
    exact ⟨w, rfl, .refl w, hwrote.mono fun S _ h => ⟨h, fun _ hb => (List.not_mem_nil hb).elim⟩⟩
  | cons b rest ih =>
    intro w L hwrote hnodup htarget
    rw [List.map_cons, List.nodup_cons] at hnodup
    obtain ⟨hlo, hhi⟩ := hwrote.within b.pc List.mem_cons_self
    rw [patchBreaks]
    refine (patchBreak_spec (w := w.popped outer) hhi htarget).bind fun _ w' => ?_
    rintro ⟨events, rfl, hfar⟩
    have haim := hwrote.aim .jmp (joinClose b.close close) hnodup.1 hfar events
    have hpc := (Recoded.patched w b.pc
      (.asbx .jmp (joinClose b.close close) ((target : Int) - b.pc - 1)) events)
    refine (ih haim hnodup.2 (hpc.pc ▸ htarget)).mono fun _ w' => ?_
    rintro ⟨w₁, rfl, hcode, hdone⟩
    refine ⟨w₁, rfl, hpc.trans hcode, hdone.mono fun S _ ⟨⟨hL, hland⟩, hrest⟩ => ⟨hL, ?_⟩⟩
    intro c hc
    rcases List.mem_cons.mp hc with rfl | hmem
    · exact hland
    · exact hrest c hmem

/-! ## Leaving -/

/-- Where the locals of a scope end that is left at a position. -/
def endsAt (endPc : Nat) : Nat → Local → Nat := fun _ v => max endPc v.startPc

theorem endLocals_left {outer' : List Scope} {endPc : Nat} (hw : w.Wf)
    (hused : w.used = w.opened.length) (hs : w.draft.scopes = s :: outer)
    (houter : Scope.allLocals outer' = Scope.allLocals outer) :
    Ensures safe (endLocals endPc s.locals) (w.popped outer') fun _ w' =>
      ∃ d', w' = { w with draft := d' } ∧
        Draft.Left outer' s.locals (endsAt endPc) w.draft d' := by
  have hopened : w.opened = s.locals ++ Scope.allLocals outer' := by
    rw [houter, Workspace.opened, Draft.opened, hs]
    rfl
  have htracks : (w.popped outer').draft.Tracks (s.locals ++ Scope.allLocals outer') :=
    hopened ▸ hw.draft.tracks.congr rfl fun _ _ => rfl
  have hused' : (w.popped outer').used = (s.locals ++ Scope.allLocals outer').length :=
    hopened ▸ hused
  refine (endLocals_spec endPc htracks hused').mono fun _ w' => ?_
  rintro ⟨d', rfl, hrest, htracks', hsize, hentry⟩
  exact ⟨d', rfl, hrest, htracks', hsize, hentry⟩

/-- Leaving a scope that is not a loop. -/
theorem closeScope_plain (hw : w.Wf) (hused : w.used = w.opened.length)
    (hs : w.draft.scopes = s :: outer) (hplain : s.breaks = none) (endPc : Nat) :
    Ensures safe (closeScope endPc) w fun _ w' => ∃ d' events,
      w' = { w with draft := d', events } ∧
        Draft.Left (Scope.raiseBreaks outer.length (w.draft.levelOf s.locals) outer) s.locals
          (endsAt endPc) w.draft d' := by
  unfold closeScope
  refine (closeLevel_spec hw hs).bind fun close w' => ?_
  rintro ⟨rfl, rfl⟩
  rw [ensures_view_bind, hs]
  dsimp only
  rw [hplain]
  dsimp only
  rw [ensures_update_bind]
  refine (endLocals_left hw hused hs (Scope.allLocals_raiseBreaks _ _ _)).bind fun _ w₁ => ?_
  rintro ⟨d', rfl, hleft⟩
  exact ⟨d', _, rfl, hleft⟩

/-- Leaving a loop. -/
theorem closeScope_loop {L : Site → Prop} (hwrote : Wrote (bs.map (·.pc)) w₀ w L)
    (horder : bs.Pairwise fun b b' => b'.pc < b.pc) (hused : w.used = w.opened.length)
    (hs : w.draft.scopes = s :: outer) (hloop : s.breaks = some bs) (endPc : Nat) :
    Ensures safe (closeScope endPc) w fun _ w' => ∃ w₁ d' events,
      Recoded w w₁ ∧ w' = { w₁ with draft := d', events } ∧
        Draft.Left outer s.locals (endsAt endPc) w₁.draft d' ∧
        Wrote [] w₀ w₁ fun S => L S ∧
          Settles S (some ⟨w.draft.pc, w.draft.levelOf s.locals⟩) bs := by
  unfold closeScope
  refine (closeLevel_spec hwrote.wf hs).bind fun close w' => ?_
  rintro ⟨rfl, rfl⟩
  rw [ensures_view_bind, hs]
  dsimp only
  rw [hloop]
  dsimp only
  rw [ensures_update_bind, ensures_here_bind]
  have hwrote' : Wrote (bs.reverse.map (·.pc)) w₀ w' L := hwrote.congr fun i => by simp
  have hnodup : (bs.reverse.map (·.pc)).Nodup := by
    rw [List.Nodup, List.pairwise_map, List.pairwise_reverse]
    exact horder.imp fun h => Nat.ne_of_lt h
  refine (patchBreaks_spec outer hwrote' hnodup le_rfl).bind fun _ w₁ => ?_
  rintro ⟨w₁, rfl, hcode, hdone⟩
  have hused₁ : w₁.used = w₁.opened.length := by rw [hcode.rest]; exact hused
  have hs₁ : w₁.draft.scopes = s :: outer := by rw [hcode.rest]; exact hs
  refine (endLocals_left hdone.wf hused₁ hs₁ rfl).bind fun _ w₂ => ?_
  rintro ⟨d', rfl, hleft⟩
  refine ⟨w₁, d', _, hcode, rfl, hleft, hdone.mono fun S _ ⟨hL, hland⟩ => ⟨hL, fun e he => ?_,
    fun b hb => ⟨_, rfl, hland b (List.mem_reverse.mpr hb)⟩⟩⟩
  obtain rfl := Option.some.inj he
  exact scope_level_lt hwrote.wf hs

end LuaLowering
