import LuaLowering.Workspace
import LuaLowering.Proofs.Breaks
import LuaLowering.Proofs.Capturing

/-!
# What lowering keeps

Lowering only ever adds to a function, but it does come back to what it wrote:
jumps are aimed late, locals end and are captured late. Three relations say how
far that goes.

`Draft.Becomes` holds from any moment of a function to any later one, its end
included. `Draft.Steady` is what the code of an expression observes, which opens
no scope and declares nothing. `Workspace.Continues` is the first of them for a
whole workspace, where the enclosing functions are at most touched.

`Workspace.Wf` is the invariant of the builder between two steps. Whoever uses
it never looks at the map of names or the links between declarations again.
-/

namespace LuaLowering

variable {d d' : Draft} {lo : Nat} {w w' : Workspace}

namespace Draft

/-- What stays fixed throughout a function. -/
def header (d : Draft) : Nat × Bool × Nat × Bool × Nat × Nat :=
  (d.registers.limit, d.isMain, d.paramCount, d.isVararg, d.lineDefined, d.lastLineDefined)

/-- What a function has now is there later: entries stay at their places,
declarations stay as they were made, and a local that is no longer open does not
change any more. -/
structure Becomes (d d' : Draft) : Prop where
  header : d'.header = d.header
  peak : d.registers.peak ≤ d'.registers.peak
  constants : Keeps d.constants d'.constants
  upvalues : Keeps d.upvalues d'.upvalues
  nested : Keeps d.nested d'.nested
  locals : ∀ (i : Nat) (v : Local), d.locals[i]? = some v → ∃ v', d'.locals[i]? = some v' ∧
    v'.declared = v.declared ∧ (v.captured = true → v'.captured = true) ∧ (i ∉ d.opened → v' = v)
  opened : ∀ i ∈ d'.opened, i ∈ d.opened ∨ d.locals.size ≤ i

/-- The effect of code that opens no scope and declares no local. The code
below `lo` is not changed. -/
structure Steady (lo : Nat) (d d' : Draft) : Prop where
  scopes : d'.scopes = d.scopes
  visible : d'.visible = d.visible
  header : d'.header = d.header
  peak : d.registers.peak ≤ d'.registers.peak
  locals : Flagged d.opened d.locals d'.locals
  constants : Keeps d.constants d'.constants
  upvalues : Keeps d.upvalues d'.upvalues
  count : d'.upvalues.size ≤ max d.upvalues.size maxUpvalues
  nested : Keeps d.nested d'.nested
  pc : d.pc ≤ d'.pc
  code : ∀ i, i < lo → d'.code[i]? = d.code[i]?

namespace Becomes

theorem size_le (h : d.Becomes d') : d.locals.size ≤ d'.locals.size := by
  rcases Nat.eq_zero_or_pos d.locals.size with h0 | hpos
  · omega
  · have hlt : d.locals.size - 1 < d.locals.size := by omega
    obtain ⟨v', hv', -⟩ := h.locals _ _ (Array.getElem?_eq_getElem hlt)
    have := (Array.getElem?_eq_some_iff.mp hv').1
    omega

theorem trans {d'' : Draft} (h₁ : d.Becomes d') (h₂ : d'.Becomes d'') : d.Becomes d'' := by
  refine ⟨h₂.header.trans h₁.header, Nat.le_trans h₁.peak h₂.peak,
    h₁.constants.trans h₂.constants, h₁.upvalues.trans h₂.upvalues,
    h₁.nested.trans h₂.nested, fun i v hv => ?_, fun i hi => ?_⟩
  · obtain ⟨v', hv', hdecl, hcap, hkeep⟩ := h₁.locals i v hv
    obtain ⟨v'', hv'', hdecl', hcap', hkeep'⟩ := h₂.locals i v' hv'
    refine ⟨v'', hv'', hdecl'.trans hdecl, fun h => hcap' (hcap h), fun hi => ?_⟩
    have hlt := (Array.getElem?_eq_some_iff.mp hv).1
    have hi' : i ∉ d'.opened := by
      intro hmem
      rcases h₁.opened i hmem with h | h
      · exact hi h
      · omega
    rw [hkeep' hi', hkeep hi]
  · rcases h₂.opened i hi with h | h
    · exact h₁.opened i h
    · exact Or.inr (Nat.le_trans h₁.size_le h)

theorem declarationAt? (h : d.Becomes d') {i : Nat} (hi : i < d.locals.size) :
    d'.declarationAt? i = d.declarationAt? i := by
  have hv := Array.getElem?_eq_getElem hi
  obtain ⟨v', hv', hdecl, -⟩ := h.locals i _ hv
  rw [declarationAt?_eq_some hv, declarationAt?_eq_some hv', hdecl]

end Becomes

namespace Steady

variable {lo : Nat} {d d' : Draft}

theorem refl (lo : Nat) (d : Draft) : d.Steady lo d :=
  ⟨rfl, rfl, rfl, Nat.le_refl _, .refl _ _, .refl _, .refl _, Nat.le_max_left _ _, .refl _,
    Nat.le_refl _, fun _ _ => rfl⟩

theorem opened (h : d.Steady lo d') : d'.opened = d.opened := by
  rw [Draft.opened, h.scopes, Draft.opened]

theorem limit (h : d.Steady lo d') : d'.registers.limit = d.registers.limit :=
  congrArg Prod.fst h.header

theorem becomes (h : d.Steady lo d') : d.Becomes d' := by
  refine ⟨h.header, h.peak, h.constants, h.upvalues, h.nested, fun i v hv => ?_,
    fun i hi => Or.inl (h.opened ▸ hi)⟩
  obtain ⟨b, hb, hcap, hkeep⟩ := h.locals.entry i v hv
  refine ⟨_, hb, rfl, hcap, fun hi => ?_⟩
  rw [hkeep hi]

end Steady

theorem Touched.steady (h : d.Touched d') (lo : Nat) : d.Steady lo d' where
  scopes := h.scopes
  visible := h.visible
  header := by rw [h.rest]; rfl
  peak := Nat.le_of_eq (by rw [h.rest])
  locals := h.locals
  constants := by rw [h.rest]; exact .refl _
  upvalues := h.upvalues
  count := h.count
  nested := by rw [h.rest]; exact .refl _
  pc := Nat.le_of_eq (by rw [h.rest]; rfl)
  code := fun _ _ => by rw [h.rest]

/-- The builder's invariant for one function: its open locals are tracked and
lie below the registers in use, and every pending break stands in a scope that
is open. -/
structure Wf (d : Draft) : Prop where
  tracks : d.Tracks d.opened
  breaks : Scope.BreaksBelow d.scopes.length d.scopes
  held : d.opened.length ≤ d.registers.used
  fits : d.registers.used ≤ d.registers.limit
  upvalues : d.upvalues.size ≤ maxUpvalues

theorem Wf.steady (hw : d.Wf) (h : d.Steady lo d') (hheld : d.opened.length ≤ d'.registers.used)
    (hfits : d'.registers.used ≤ d.registers.limit) : d'.Wf where
  tracks := by
    rw [h.opened]
    exact hw.tracks.congr h.visible fun _ _ => h.locals.declared
  breaks := by rw [h.scopes]; exact hw.breaks
  held := by rw [h.opened]; exact hheld
  fits := by rw [h.limit]; exact hfits
  upvalues := by
    have hle := h.count
    have hup := hw.upvalues
    omega

theorem Wf.touched (hw : d.Wf) (h : d.Touched d') : d'.Wf := by
  have hreg : d'.registers = d.registers := by rw [h.rest]
  exact hw.steady (h.steady 0) (hreg ▸ hw.held) (hreg ▸ hw.fits)

end Draft

namespace Workspace

/-- The workspace after some lowering. The function being written goes on, and
those around it are at most touched. -/
structure Continues (w w' : Workspace) : Prop where
  options : w'.options = w.options
  draft : w.draft.Becomes w'.draft
  enclosing : List.Forall₂ Draft.Touched w.enclosing w'.enclosing
  captures : CapturesOk w.draft w.enclosing → CapturesOk w'.draft w'.enclosing
  base : (outermost w'.draft w'.enclosing).upvalues = (outermost w.draft w.enclosing).upvalues

/-- As `Continues`, for code that opens no scope and declares no local. -/
structure Steady (lo : Nat) (w w' : Workspace) : Prop where
  options : w'.options = w.options
  draft : w.draft.Steady lo w'.draft
  enclosing : List.Forall₂ Draft.Touched w.enclosing w'.enclosing
  captures : CapturesOk w.draft w.enclosing → CapturesOk w'.draft w'.enclosing
  base : (outermost w'.draft w'.enclosing).upvalues = (outermost w.draft w.enclosing).upvalues

theorem forall₂_touched_trans {ds ds' ds'' : List Draft}
    (h₁ : List.Forall₂ Draft.Touched ds ds') (h₂ : List.Forall₂ Draft.Touched ds' ds'') :
    List.Forall₂ Draft.Touched ds ds'' := by
  induction h₁ generalizing ds'' with
  | nil =>
    cases h₂
    exact .nil
  | cons hd _ ih =>
    cases h₂ with
    | cons hd' hds' => exact .cons (hd.trans hd') (ih hds')

theorem Continues.trans {w'' : Workspace} (h₁ : w.Continues w') (h₂ : w'.Continues w'') :
    w.Continues w'' where
  options := h₂.options.trans h₁.options
  draft := h₁.draft.trans h₂.draft
  enclosing := forall₂_touched_trans h₁.enclosing h₂.enclosing
  captures := fun h => h₂.captures (h₁.captures h)
  base := h₂.base.trans h₁.base

namespace Steady

variable {lo : Nat} {w w' : Workspace}

theorem refl (lo : Nat) (w : Workspace) : w.Steady lo w :=
  ⟨rfl, .refl _ _, forall₂_touched_refl _, id, rfl⟩

theorem continues (h : w.Steady lo w') : w.Continues w' :=
  ⟨h.options, h.draft.becomes, h.enclosing, h.captures, h.base⟩

end Steady

/-- A step that changes only the function being written, and not its
upvalues. -/
theorem steady_of_draft (events : Array Event) (h : w.draft.Steady lo d)
    (hup : d.upvalues = w.draft.upvalues) : w.Steady lo { w with draft := d, events } :=
  ⟨rfl, h, forall₂_touched_refl _, fun hc => hc.congr hup, outermost_congr hup⟩

/-- The builder's invariant. -/
structure Wf (w : Workspace) : Prop where
  draft : w.draft.Wf
  enclosing : ∀ e ∈ w.enclosing, e.Wf ∧ e.registers.limit = w.options.registerLimit
  captures : CapturesOk w.draft w.enclosing
  limit : w.draft.registers.limit = w.options.registerLimit
  small : w.options.registerLimit ≤ frameRegisters

/-- A change of only the function being written, which keeps its upvalues. -/
theorem continues_of_draft (events : Array Event) (h : w.draft.Becomes d)
    (hup : d.upvalues = w.draft.upvalues) : w.Continues { w with draft := d, events } :=
  ⟨rfl, h, forall₂_touched_refl _, fun hc => hc.congr hup, outermost_congr hup⟩

theorem enclosing_wf (hw : w.Wf) (ho : w'.options = w.options)
    (h : List.Forall₂ Draft.Touched w.enclosing w'.enclosing) :
    ∀ e ∈ w'.enclosing, e.Wf ∧ e.registers.limit = w'.options.registerLimit := by
  intro e' he'
  obtain ⟨i, hi, rfl⟩ := List.mem_iff_getElem.mp he'
  have hi₀ : i < w.enclosing.length := by rw [h.length_eq]; exact hi
  have ht : w.enclosing[i].Touched w'.enclosing[i] := List.Forall₂.get h hi₀ hi
  obtain ⟨hwf, hlim⟩ := hw.enclosing _ (List.getElem_mem hi₀)
  refine ⟨hwf.touched ht, ?_⟩
  rw [ho, ← hlim, ht.rest]

theorem Wf.of_draft (hw : w.Wf) (events : Array Event) (hd : d.Wf) (h : w.draft.Becomes d)
    (hup : d.upvalues = w.draft.upvalues) :
    ({ w with draft := d, events } : Workspace).Wf where
  draft := hd
  enclosing := hw.enclosing
  captures := hw.captures.congr hup
  limit := (congrArg Prod.fst h.header).trans hw.limit
  small := hw.small

theorem Wf.steady (hw : w.Wf) (h : w.Steady lo w')
    (hheld : w.draft.opened.length ≤ w'.draft.registers.used)
    (hfits : w'.draft.registers.used ≤ w.draft.registers.limit) : w'.Wf where
  draft := hw.draft.steady h.draft hheld hfits
  enclosing := enclosing_wf hw h.options h.enclosing
  captures := h.captures hw.captures
  limit := by rw [h.draft.limit, h.options, hw.limit]
  small := by rw [h.options]; exact hw.small

end Workspace

end LuaLowering
