import LuaLowering.Proofs.Lowering.Values
import LuaLowering.Proofs.Shape.Statement

/-!
# Entering and leaving scopes

Between two statements a function is at rest: the registers in use are those of
its open locals. A statement takes it from one such point to another, leaving
two things behind in the scopes around it, the locals it declared and the breaks
that are still to be aimed. `Advances` says so. The shape of a statement holds as
soon as the breaks land somewhere, wherever that is, so nothing has to be known
about the loop while its body is lowered.
-/

namespace LuaLowering

open LowerM

variable {safe : Prop} {w : Workspace} {w' w₁ w₂ : Workspace} {holes new new' : List Nat}
  {L : Site → Prop} {d : Draft} {x : String} {startPc : Nat}

namespace Workspace

/-- The point that has been reached. -/
def point (w : Workspace) : Point := ⟨w.mark, w.opened, w.draft.locals.size⟩

/-- Every open local has started by a position. -/
def StartedBy (w : Workspace) (pc : Nat) : Prop :=
  ∀ i ∈ w.opened, ∀ v, w.draft.locals[i]? = some v → v.startPc ≤ pc

/-- The registers in use are those of the open locals. -/
structure AtRest (w : Workspace) : Prop where
  used : w.used = w.opened.length
  scopes : w.draft.scopes ≠ []
  started : w.StartedBy w.draft.pc

theorem StartedBy.loads {pc : Nat} (h : w.StartedBy pc) (hl : Loads holes w w' L) :
    w'.StartedBy pc := by
  intro i hi v hv
  rw [hl.opened] at hi
  have hlt : i < w.draft.locals.size := by
    rw [← hl.size]
    exact (Array.getElem?_eq_some_iff.mp hv).1
  obtain ⟨v', hv', hdecl, -⟩ := hl.continues.draft.locals i _ (Array.getElem?_eq_getElem hlt)
  rw [hv] at hv'
  obtain rfl := Option.some.inj hv'
  have hstart : v.startPc = w.draft.locals[i].startPc := (congrArg Local.startPc hdecl :)
  rw [hstart]
  exact h i hi _ (Array.getElem?_eq_getElem hlt)

theorem StartedBy.mono {pc pc' : Nat} (h : w.StartedBy pc) (hle : pc ≤ pc') : w.StartedBy pc' :=
  fun i hi v hv => Nat.le_trans (h i hi v hv) hle

theorem StartedBy.wrote {pc : Nat} (h : w.StartedBy pc) (hw : w.Wf) (hwrote : Wrote holes w w' L)
    (hsub : ∀ i ∈ w'.opened, i ∈ w.opened) : w'.StartedBy pc := by
  intro i hi v hv
  have hmem := hsub i hi
  have hlt := hw.draft.tracks.stacked.lt_size i hmem
  obtain ⟨v', hv', hdecl, -⟩ := hwrote.continues.draft.locals i _ (Array.getElem?_eq_getElem hlt)
  rw [hv] at hv'
  obtain rfl := Option.some.inj hv'
  have hstart : v.startPc = w.draft.locals[i].startPc := (congrArg Local.startPc hdecl :)
  rw [hstart]
  exact h i hmem _ (Array.getElem?_eq_getElem hlt)

/-- Back in the scopes of before, with their locals only. -/
theorem AtRest.back (h : w.AtRest) (hw : w.Wf) (hwrote : Wrote holes w w' L)
    (hused : w'.used = w'.opened.length) (hopened : w'.opened = w.opened)
    (hne : w'.draft.scopes ≠ []) : w'.AtRest :=
  ⟨hused, hne, (h.started.wrote hw hwrote fun _ hi => hopened ▸ hi).mono hwrote.pc⟩

theorem AtRest.loads (h : w.AtRest) (hl : Loads holes w w' L) (hused : w'.used = w.used) :
    w'.AtRest where
  used := by rw [hused, hl.opened, h.used]
  scopes := by rw [hl.scopes]; exact h.scopes
  started := (h.started.loads hl).mono hl.pc

end Workspace

theorem Loads.point (h : Loads holes w w' L) : w'.point = w.point.at w'.mark := by
  show Point.mk _ _ _ = Point.mk _ _ _
  rw [h.opened, h.size]
  rfl

theorem Recoded.point (h : Recoded w w') : w'.point = w.point := by
  rw [Workspace.point, h.mark, h.opened, h.locals, Workspace.point]

/-! ## Statements -/

/-- A pending break leaves by an exit, if the level that it closes has a field. -/
def Exit.Lands (e : Exit) (S : Site) (b : OpenBreak) : Prop :=
  joinClose b.close e.close < 0x100 → S.Jumps .jmp b.pc (joinClose b.close e.close) e.target

/-- Pending breaks leave by an exit, which there has to be if there are any. -/
structure Settles (S : Site) (exit : Option Exit) (bs : List OpenBreak) : Prop where
  close : ∀ e, exit = some e → e.close < 0x100
  lands : ∀ b ∈ bs, ∃ e, exit = some e ∧ e.Lands S b

theorem Settles.none (S : Site) : Settles S none [] :=
  ⟨fun _ h => (Option.some_ne_none _ h.symm).elim, fun _ h => (List.not_mem_nil h).elim⟩

/-- What a stretch of statements does: it writes code, adds locals to the
innermost scope and breaks to the innermost loop, and is at rest again. -/
structure Moves (holes : List Nat) (w w' : Workspace) (bs : List OpenBreak) (new : List Nat)
    (L : Site → Option Exit → Prop) : Prop where
  wrote : Wrote (holes ++ bs.map (·.pc)) w w' fun S => ∀ exit, Settles S exit bs → L S exit
  scopes : w'.draft.scopes = Scope.addBreaks bs (Scope.addLocals new w.draft.scopes)
  rest : w'.AtRest
  depth : ∀ b ∈ bs, b.depth + 1 = w.draft.scopes.length
  order : bs.Pairwise fun b b' => b'.pc < b.pc
  loop : bs ≠ [] → Scope.inLoop w.draft.scopes = true

/-- A statement is lowered: what was written has its shape. -/
abbrev Advances (w w' : Workspace) (bs : List OpenBreak) (new : List Nat) (shape : StatShape) :
    Prop :=
  Moves [] w w' bs new fun S exit => shape S exit w.point w'.point

/-- A step lowers a statement. -/
def Lowers (safe : Prop) (m : LowerM Unit) (shape : StatShape) : Prop :=
  ∀ {w : Workspace}, w.Wf → w.AtRest →
    Ensures safe m w fun _ w' => ∃ bs new, Advances w w' bs new shape

theorem Wrote.congr {holes' : List Nat} (h : Wrote holes w w' L)
    (hmem : ∀ i, i ∈ holes' ↔ i ∈ holes) : Wrote holes' w w' L :=
  { h with
    within := fun i hi => h.within i ((hmem i).mp hi)
    code := fun S hS hset => h.code S hS fun i hlo hhi hni =>
      hset i hlo hhi fun hi => hni ((hmem i).mp hi) }

namespace Moves

variable {holes holes₁ holes₂ : List Nat} {w' w₁ w₂ : Workspace} {bs bs₁ bs₂ : List OpenBreak}
  {new new₁ new₂ : List Nat} {L L' L₁ L₂ : Site → Option Exit → Prop}

theorem opened (h : Moves holes w w' bs new L) (hne : w.draft.scopes ≠ []) :
    w'.opened = new ++ w.opened := by
  show Scope.allLocals w'.draft.scopes = new ++ Scope.allLocals w.draft.scopes
  rw [h.scopes, Scope.allLocals_addBreaks, Scope.allLocals_addLocals new hne]

theorem mono (h : Moves holes w w' bs new L)
    (hL : ∀ S : Site, S.Ends w' → ∀ exit, L S exit → L' S exit) : Moves holes w w' bs new L' :=
  { h with wrote := h.wrote.mono fun S hS hcode exit hexit => hL S hS exit (hcode exit hexit) }

/-- The locals that are declared are new. -/
theorem size_le (h : Moves holes w w' bs new L) (hne : w.draft.scopes ≠ []) :
    ∀ i ∈ new, w.draft.locals.size ≤ i := by
  intro i hi
  have hopened := h.opened hne
  have hstacked : w'.draft.Stacked (new ++ w.opened) :=
    hopened ▸ (show w'.draft.Stacked w'.opened from h.wrote.wf.draft.tracks.stacked)
  have hmem : i ∈ w'.opened := hopened ▸ List.mem_append_left _ hi
  rcases h.wrote.continues.draft.opened i hmem with hold | hnew
  · exact absurd hold (Draft.not_mem_of_stacked hstacked i hi)
  · exact hnew

/-- Code that declares nothing and has no break in it. -/
theorem of_loads {L : Site → Prop} (hrest : w.AtRest) (h : Loads holes w w' L)
    (hused : w'.used = w.used) : Moves holes w w' [] [] fun S _ => L S where
  wrote := (h.toWrote.mono fun S _ hcode _ _ => hcode).congr fun i => by simp
  scopes := by rw [h.scopes, Scope.addBreaks_nil, Scope.addLocals_nil]
  rest := hrest.loads h hused
  depth := fun _ hb => (List.not_mem_nil hb).elim
  order := .nil
  loop := fun h => absurd rfl h

/-- One stretch after another. -/
theorem trans (h₁ : Moves holes₁ w w₁ bs₁ new₁ L₁) (h₂ : Moves holes₂ w₁ w₂ bs₂ new₂ L₂) :
    Moves (holes₁ ++ holes₂) w w₂ (bs₂ ++ bs₁) (new₂ ++ new₁) fun S exit =>
      L₁ S exit ∧ L₂ S exit where
  wrote := by
    refine ((h₁.wrote.trans h₂.wrote).congr fun i => ?_).mono fun S _ ⟨hfirst, hsecond⟩
      exit hexit => ?_
    · grind
    · refine ⟨hfirst exit ⟨hexit.close, fun b hb => ?_⟩, hsecond exit ⟨hexit.close, fun b hb => ?_⟩⟩
      · exact hexit.lands b (List.mem_append_right _ hb)
      · exact hexit.lands b (List.mem_append_left _ hb)
  scopes := by
    rw [h₂.scopes, h₁.scopes, Scope.addLocals_addBreaks, Scope.addLocals_addLocals,
      Scope.addBreaks_addBreaks]
  rest := h₂.rest
  depth := by
    intro b hb
    rcases List.mem_append.mp hb with h | h
    · rw [h₂.depth b h, h₁.scopes, Scope.length_addBreaks, Scope.length_addLocals]
    · exact h₁.depth b h
  order := by
    refine List.pairwise_append.mpr ⟨h₂.order, h₁.order, fun b hb b' hb' => ?_⟩
    have hlo := (h₂.wrote.within b.pc (List.mem_append_right _ (List.mem_map_of_mem hb))).1
    have hhi := (h₁.wrote.within b'.pc (List.mem_append_right _ (List.mem_map_of_mem hb'))).2
    omega
  loop := by
    intro hne
    by_cases h : bs₁ = []
    · have hne₂ : bs₂ ≠ [] := by
        intro h'
        exact hne (by rw [h, h', List.append_nil])
      have hloop := h₂.loop hne₂
      rw [h₁.scopes, Scope.inLoop_addBreaks, Scope.inLoop_addLocals] at hloop
      exact hloop
    · exact h₁.loop h

end Moves

namespace Advances

variable {w' : Workspace} {shape : StatShape}

/-- A statement that declares nothing and has no break in it. -/
theorem of_loads (hrest : w.AtRest) (h : Loads [] w w' L) (hused : w'.used = w.used)
    (hL : ∀ S : Site, S.Ends w' → L S → ∀ exit, shape S exit w.point w'.point) :
    Advances w w' [] [] shape :=
  (Moves.of_loads hrest h hused).mono fun S hS exit hcode => hL S hS hcode exit

/-- A statement that ends in the scopes in which it began. -/
theorem of_wrote (hw : w.Wf) (hrest : w.AtRest) (h : Wrote [] w w' L)
    (hscopes : w'.draft.scopes = w.draft.scopes) (hused : w'.used = w'.opened.length)
    (hL : ∀ S : Site, S.Ends w' → L S → ∀ exit, shape S exit w.point w'.point) :
    Advances w w' [] [] shape := by
  have hopened : w'.opened = w.opened := by
    rw [Workspace.opened, Draft.opened, hscopes, Workspace.opened, Draft.opened]
  exact
    { wrote := h.mono fun S hS hcode exit _ => hL S hS hcode exit
      scopes := by rw [hscopes, Scope.addBreaks_nil, Scope.addLocals_nil]
      rest := hrest.back hw h hused hopened (by rw [hscopes]; exact hrest.scopes)
      depth := fun _ hb => (List.not_mem_nil hb).elim
      order := .nil
      loop := fun h => absurd rfl h }

end Advances

/-! ## Declarations -/

theorem Draft.opened_declare (hne : d.scopes ≠ []) (x : String) (slot startPc : Nat) :
    (d.declare x slot startPc).opened = d.locals.size :: d.opened := by
  unfold Draft.opened Draft.declare
  cases hs : d.scopes with
  | nil => exact absurd hs hne
  | cons s rest => rfl

theorem Draft.becomes_declare (hne : d.scopes ≠ []) (x : String) (slot startPc : Nat) :
    d.Becomes (d.declare x slot startPc) := by
  refine ⟨rfl, le_rfl, .refl _, .refl _, .refl _, fun i v hv => ?_, fun i hi => ?_⟩
  · exact ⟨v, Keeps.push _ _ i v hv, rfl, id, fun _ => rfl⟩
  · rw [Draft.opened_declare hne] at hi
    rcases List.mem_cons.mp hi with rfl | h
    · exact Or.inr le_rfl
    · exact Or.inl h

theorem Draft.scopes_declare (d : Draft) (x : String) (slot startPc : Nat) :
    (d.declare x slot startPc).scopes = Scope.addLocals [d.locals.size] d.scopes := by
  unfold Draft.declare Scope.addLocals
  cases d.scopes <;> rfl

theorem Draft.Wf.declare (hd : d.Wf) (hne : d.scopes ≠ [])
    (hused : d.registers.used = d.opened.length + 1) (x : String) (startPc : Nat) :
    (d.declare x d.opened.length startPc).Wf where
  tracks := by
    rw [Draft.opened_declare hne]
    exact hd.tracks.declare x startPc
  breaks := by
    rw [Draft.scopes_declare, Scope.length_addLocals]
    exact hd.breaks.addLocals _
  held := by
    rw [Draft.opened_declare hne, List.length_cons]
    exact Nat.le_of_eq hused.symm
  fits := hd.fits
  upvalues := hd.upvalues

/-- A local, once its register is taken. -/
theorem wrote_declare (hw : w.Wf) (hne : w.draft.scopes ≠ [])
    (hused : w.used = w.opened.length + 1) (x : String) (startPc : Nat) :
    Wrote [] w { w with draft := w.draft.declare x w.opened.length startPc } fun S =>
      ∃ v, S.draft.locals[w.draft.locals.size]? = some v ∧ v.name = x ∧
        v.slot = w.opened.length ∧ v.startPc = startPc where
  continues := Workspace.continues_of_draft _ (Draft.becomes_declare hne x _ startPc) rfl
  wf := hw.of_draft _ (hw.draft.declare hne hused x startPc) (Draft.becomes_declare hne x _ startPc)
    rfl
  pc := le_rfl
  below := fun _ _ => rfl
  within := fun _ h => (List.not_mem_nil h).elim
  code := fun S hS _ => by
    obtain ⟨v, hv, hdecl, -⟩ := hS.draft.locals _ _ Array.getElem?_push_size
    exact ⟨v, hv, (congrArg Local.name hdecl :), (congrArg Local.slot hdecl :),
      (congrArg Local.startPc hdecl :)⟩

/-- Some locals are the last `n` of the table, which were not there before. -/
structure Newest (n : Nat) (new : List Nat) (w w' : Workspace) : Prop where
  size : w'.draft.locals.size = w.draft.locals.size + n
  count : new.length = n
  mem : ∀ i, i ∈ new ↔ w.draft.locals.size ≤ i ∧ i < w'.draft.locals.size

theorem Newest.trans {n n' : Nat} (h₁ : Newest n new w w₁) (h₂ : Newest n' new' w₁ w₂) :
    Newest (n + n') (new' ++ new) w w₂ where
  size := by rw [h₂.size, h₁.size, Nat.add_assoc]
  count := by rw [List.length_append, h₂.count, h₁.count, Nat.add_comm]
  mem := fun i => by
    have hsize₁ := h₁.size
    have hsize₂ := h₂.size
    rw [List.mem_append, h₂.mem, h₁.mem]
    omega

/-- What declaring some names does. -/
structure DeclaresTo (startPc : Nat) (names : List String) (new : List Nat)
    (w w' : Workspace) : Prop where
  wrote : Wrote [] w w' fun S => Declares S startPc names w.point w'.point
  scopes : w'.draft.scopes = Scope.addLocals new w.draft.scopes
  used : w'.used = w'.opened.length
  mark : w'.mark = w.mark
  started : ∀ pc, w.StartedBy pc → startPc ≤ pc → w'.StartedBy pc
  newest : Newest names.length new w w'
  first : names ≠ [] → ∃ v, w'.draft.locals[w.draft.locals.size]? = some v ∧
    v.slot = w.opened.length

theorem Workspace.StartedBy.declare {pc : Nat} (h : w.StartedBy pc) (hne : w.draft.scopes ≠ [])
    {slot : Nat} (hle : startPc ≤ pc) :
    ({ w with draft := w.draft.declare x slot startPc } : Workspace).StartedBy pc := by
  intro i hi v hv
  have hi' : i ∈ w.draft.locals.size :: w.opened := Draft.opened_declare hne x slot startPc ▸ hi
  have hv' : (w.draft.locals.push ⟨x, slot, startPc, startPc, false, w.draft.visible.find? x⟩)[i]? =
      some v := hv
  rw [Array.getElem?_push] at hv'
  split at hv'
  · obtain rfl := Option.some.inj hv'
    exact hle
  · next hne' =>
    rcases List.mem_cons.mp hi' with h' | hmem
    · exact absurd h' hne'
    · exact h i hmem v hv'

theorem declareLocal_spec (hw : w.Wf) (hused : w.used = w.opened.length)
    (hne : w.draft.scopes ≠ []) (x : String) (startPc : Nat) :
    Ensures safe (declareLocal x startPc) w fun r w' =>
      r = w.opened.length ∧ DeclaresTo startPc [x] [w.draft.locals.size] w w' := by
  unfold declareLocal
  refine (takeRegister_spec hw).bind fun r w₁ => ?_
  rintro ⟨rfl, hused₁, hmark₁, hload₁⟩
  rw [ensures_update_bind, ensures_pure]
  have hopened₁ := hload₁.opened
  have hne₁ : w₁.draft.scopes ≠ [] := by rw [hload₁.scopes]; exact hne
  have hslot : w.used = w₁.opened.length := by rw [hopened₁, hused]
  rw [hslot]
  have hwrote := wrote_declare hload₁.wf hne₁ (by omega) x startPc
  have hopened : ({ w₁ with draft := w₁.draft.declare x w₁.opened.length startPc } :
      Workspace).opened = w₁.draft.locals.size :: w₁.opened := Draft.opened_declare hne₁ _ _ _
  have hsize : (w₁.draft.declare x w₁.opened.length startPc).locals.size =
      w₁.draft.locals.size + 1 := Array.size_push _
  refine ⟨hslot.symm.trans hused, ?_, ?_, ?_, ?_, ?_, ⟨?_, rfl, fun i => ?_⟩, fun _ => ?_⟩
  · refine (hload₁.toWrote.trans hwrote).mono fun S _ ⟨hroom, hlocal⟩ => ⟨?_, ?_, ?_⟩
    · rw [hload₁.size, hopened₁] at hlocal
      exact hlocal
    · rw [hused] at hroom
      exact hroom
    · show Point.mk _ _ _ = Point.mk _ _ _
      rw [hopened, hsize, hload₁.size, hopened₁]
      exact congrArg₂ (fun m n => Point.mk m _ n) hmark₁ rfl
  · show (w₁.draft.declare _ _ _).scopes = _
    rw [Draft.scopes_declare, hload₁.scopes, hload₁.size]
  · rw [hopened, List.length_cons]
    show w₁.used = _
    omega
  · exact hmark₁
  · exact fun pc hpc hle => (hpc.loads hload₁).declare hne₁ hle
  · exact hsize.trans (by rw [hload₁.size]; rfl)
  · rw [List.mem_singleton, hsize, hload₁.size]
    omega
  · rw [← hload₁.size, ← hopened₁]
    exact ⟨_, Array.getElem?_push_size, rfl⟩

theorem DeclaresTo.nil (hw : w.Wf) (hused : w.used = w.opened.length) (startPc : Nat) :
    DeclaresTo startPc [] [] w w where
  wrote := (Wrote.refl hw).mono fun _ _ _ => rfl
  scopes := (Scope.addLocals_nil _).symm
  used := hused
  mark := rfl
  started := fun _ h _ => h
  newest := ⟨rfl, rfl, fun i => ⟨fun h => (List.not_mem_nil h).elim, fun h => by omega⟩⟩
  first := fun h => absurd rfl h

theorem DeclaresTo.cons {names : List String} (h₁ : DeclaresTo startPc [x] new w w₁)
    (h₂ : DeclaresTo startPc names new' w₁ w₂) :
    DeclaresTo startPc (x :: names) (new' ++ new) w w₂ where
  wrote := (h₁.wrote.trans h₂.wrote).mono fun S _ ⟨⟨hlocal, hroom, hpoint⟩, hrest⟩ =>
    ⟨hlocal, hroom, hpoint ▸ hrest⟩
  scopes := by rw [h₂.scopes, h₁.scopes, Scope.addLocals_addLocals]
  used := h₂.used
  mark := h₂.mark.trans h₁.mark
  started := fun pc hpc hle => h₂.started pc (h₁.started pc hpc hle) hle
  newest := by
    rw [List.length_cons, Nat.add_comm]
    exact h₁.newest.trans h₂.newest
  first := fun _ => by
    obtain ⟨v, hv, hslot⟩ := h₁.first (List.cons_ne_nil _ _)
    obtain ⟨v', hv', hdecl, -⟩ := h₂.wrote.continues.draft.locals _ v hv
    exact ⟨v', hv', (congrArg Local.slot hdecl :).trans hslot⟩

theorem declareLocals_spec (startPc : Nat) (names : List String) :
    ∀ {w : Workspace}, w.Wf → w.used = w.opened.length → w.draft.scopes ≠ [] →
      Ensures safe (declareLocals startPc names) w fun _ w' =>
        ∃ new, DeclaresTo startPc names new w w' := by
  induction names with
  | nil => exact fun hw hused _ => ⟨[], .nil hw hused startPc⟩
  | cons x rest ih =>
    intro w hw hused hne
    rw [declareLocals]
    refine (declareLocal_spec hw hused hne x startPc).bind fun _ w₁ => ?_
    rintro ⟨-, h₁⟩
    have hne₁ : w₁.draft.scopes ≠ [] := by
      rw [← List.length_pos_iff, h₁.scopes, Scope.length_addLocals, List.length_pos_iff]
      exact hne
    refine (ih h₁.wrote.wf h₁.used hne₁).mono fun _ w₂ => ?_
    rintro ⟨new, h₂⟩
    exact ⟨_, h₁.cons h₂⟩

/-! ## Entering a scope -/

/-- A change of the scopes that keeps the open locals. -/
theorem wrote_scopes (hw : w.Wf) {scopes : List Scope} (events : Array Event)
    (hopened : Scope.allLocals scopes = w.opened)
    (hbreaks : Scope.BreaksBelow scopes.length scopes) :
    Wrote [] w { w with draft := { w.draft with scopes }, events } fun _ => True := by
  have hbecomes : w.draft.Becomes { w.draft with scopes } :=
    ⟨rfl, le_rfl, .refl _, .refl _, .refl _, fun _ v h => ⟨v, h, rfl, id, fun _ => rfl⟩,
      fun i h => Or.inl (show i ∈ w.opened from hopened ▸ h)⟩
  have htracks : ({ w.draft with scopes } : Draft).Tracks (Scope.allLocals scopes) :=
    hopened ▸ hw.draft.tracks.congr rfl fun _ _ => rfl
  exact
    { continues := Workspace.continues_of_draft _ hbecomes rfl
      wf := hw.of_draft _ ⟨htracks, hbreaks,
        Nat.le_trans (Nat.le_of_eq (congrArg List.length hopened)) hw.held,
        hw.draft.fits, hw.draft.upvalues⟩ hbecomes rfl
      pc := le_rfl
      below := fun _ _ => rfl
      within := fun _ h => (List.not_mem_nil h).elim
      code := fun _ _ _ => trivial }

/-- The same point and the same locals, in other scopes. -/
structure Rescoped (w w' : Workspace) : Prop where
  wrote : Wrote [] w w' fun _ => True
  point : w'.point = w.point
  used : w'.used = w.used
  locals : w'.draft.locals = w.draft.locals

theorem Rescoped.opened (h : Rescoped w w') : w'.opened = w.opened :=
  congrArg Point.opened h.point

theorem Rescoped.pc (h : Rescoped w w') : w'.draft.pc = w.draft.pc :=
  congrArg (fun P => P.toMark.pc) h.point

theorem Workspace.AtRest.rescoped (h : w.AtRest) (hs : Rescoped w w') (hne : w'.draft.scopes ≠ []) :
    w'.AtRest where
  used := by rw [hs.used, h.used, hs.opened]
  scopes := hne
  started := by
    intro i hi v hv
    rw [hs.opened] at hi
    rw [hs.locals] at hv
    rw [hs.pc]
    exact h.started i hi v hv

theorem openScope_spec (hw : w.Wf) (breakable : Bool) :
    Ensures safe (openScope breakable) w fun _ w' =>
      w'.draft.scopes = .opened breakable :: w.draft.scopes ∧ Rescoped w w' := by
  exact ⟨rfl, wrote_scopes hw _ rfl (hw.draft.breaks.opened breakable), rfl, rfl, rfl⟩

/-! ## Breaks -/

theorem addBreak_spec (hw : w.Wf) (hne : w.draft.scopes ≠ []) (pc line : Nat) :
    Ensures safe (addBreak pc line) w fun _ w' =>
      ∃ b : OpenBreak, b.pc = pc ∧ b.close = 0 ∧ b.depth + 1 = w.draft.scopes.length ∧
        w'.draft.scopes = Scope.addBreaks [b] w.draft.scopes ∧
        Scope.inLoop w.draft.scopes = true ∧ Rescoped w w' := by
  unfold addBreak
  rw [ensures_view_bind, Scope.addBreak?_eq]
  split
  · next scopes hsome =>
    split at hsome
    · next hloop =>
      obtain rfl := Option.some.inj hsome
      have hdepth : w.draft.scopes.length - 1 + 1 = w.draft.scopes.length :=
        Nat.sub_add_cancel (List.length_pos_iff.mpr hne)
      refine ⟨_, rfl, rfl, hdepth, rfl, hloop, ?_⟩
      refine ⟨wrote_scopes hw _ (Scope.allLocals_addBreaks _ _) ?_, ?_, rfl, rfl⟩
      · rw [Scope.length_addBreaks]
        refine hw.draft.breaks.addBreaks fun c hc => ?_
        obtain rfl := List.mem_singleton.mp hc
        show w.draft.scopes.length - 1 < _
        omega
      · exact congrArg (fun o => Point.mk _ o _) (Scope.allLocals_addBreaks _ _)
    · cases hsome
  · trivial

theorem lowerBreak_lowers (line : Nat) : Lowers safe (lowerBreak line) BreakIs := by
  intro w hw hrest
  unfold lowerBreak Emit.jump
  refine (asbx_hole hw line _ 0).bind fun pc w₁ => ?_
  rintro ⟨rfl, hused₁, hmark₁, -, hload₁⟩
  have hrest₁ := hrest.loads hload₁ hused₁
  refine (addBreak_spec hload₁.wf hrest₁.scopes _ line).mono fun _ w₂ => ?_
  rintro ⟨b, hpc, hclose, hdepth, hscopes, hloop, hsame⟩
  refine ⟨[b], [], ?_, ?_, ?_, ?_, ?_, ?_⟩
  · have hholes : [b].map (·.pc) = [w.draft.pc] ++ [] := by rw [List.map_singleton, hpc]; rfl
    rw [hholes]
    refine (hload₁.toWrote.trans hsame.wrote).mono fun S _ _ exit hexit => ?_
    obtain ⟨e, rfl, hland⟩ := hexit.lands b List.mem_cons_self
    rw [Exit.Lands, hpc, hclose, joinClose_zero_left] at hland
    refine ⟨e, rfl, hland (hexit.close e rfl), ?_⟩
    rw [hsame.point]
    show Point.mk _ _ _ = Point.mk _ _ _
    rw [hload₁.opened, hload₁.size, hmark₁]
    rfl
  · rw [hscopes, hload₁.scopes, Scope.addLocals_nil]
  · refine hrest₁.rescoped hsame ?_
    rw [← List.length_pos_iff, hscopes, Scope.length_addBreaks, List.length_pos_iff]
    exact hrest₁.scopes
  · intro c hc
    obtain rfl := List.mem_singleton.mp hc
    rw [hdepth, hload₁.scopes]
  · exact List.pairwise_singleton _ _
  · intro _
    rw [← hload₁.scopes]
    exact hloop

end LuaLowering
