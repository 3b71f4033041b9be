import LuaLowering.Proofs.Lasting

/-!
# Work on a function and the functions around it

Whatever is done to a function under construction, its constants stay where they are and
its code does not get shorter. The functions around it take part in the work only when a
name turns out to be one of theirs: the local of theirs that it stands for is then marked as
captured and outer variables are added, and all else about them stays as it was. `Workspace.WorksOn`
says both. It holds between the two ends of every history, whichever operations it is made of
and whether they finish or reject the chunk.
-/

namespace LuaLowering

open LowerM

/-! ## What becomes of a waiting function -/

namespace Draft

/-- The indexes that visible names stand for. -/
def seen (d : Draft) : List Nat := d.visible.filterMap fun p => d.visible.find? p.1

/-- Locals that a name stands for were captured and outer variables added, and nothing else
changed. -/
structure Marked (d d' : Draft) : Prop where
  rest : d' = { d with locals := d'.locals, upvalues := d'.upvalues }
  locals : Flagged d.seen d.locals d'.locals
  upvalues : Keeps d.upvalues d'.upvalues

variable {d d' d'' : Draft}

theorem mem_seen {i : Nat} : i ∈ d.seen ↔ ∃ x, d.visible.find? x = some i := by
  rw [seen, List.mem_filterMap]
  constructor
  · rintro ⟨p, -, hp⟩
    exact ⟨p.1, hp⟩
  · rintro ⟨x, hx⟩
    exact ⟨(x, i), NameMap.mem_of_find? hx, hx⟩

theorem Marked.seen (h : d.Marked d') : d'.seen = d.seen := by
  rw [h.rest]
  rfl

theorem Marked.refl (d : Draft) : d.Marked d := ⟨rfl, .refl _ _, .refl _⟩

theorem Marked.trans (h₁ : d.Marked d') (h₂ : d'.Marked d'') : d.Marked d'' := by
  refine ⟨?_, h₁.locals.trans (h₁.seen ▸ h₂.locals), h₁.upvalues.trans h₂.upvalues⟩
  rw [h₂.rest, h₁.rest]

theorem Marked.constants (h : d.Marked d') : d'.constants = d.constants := by rw [h.rest]

theorem Marked.pc (h : d.Marked d') : d'.pc = d.pc := by
  rw [h.rest]
  rfl

theorem marked_capture {i : Nat} (hi : i ∈ d.seen) : d.Marked (d.capture i) := by
  refine ⟨rfl, ⟨Array.size_modify, fun j v hv => ?_⟩, .refl _⟩
  by_cases hij : i = j
  · subst hij
    refine ⟨true, ?_, fun _ => rfl, fun hni => absurd hi hni⟩
    rw [capture, Array.getElem?_modify, if_pos rfl, hv, Option.map_some]
  · refine ⟨v.captured, ?_, id, fun _ => rfl⟩
    rw [capture, Array.getElem?_modify, if_neg hij, hv]

end Draft

theorem forall₂_marked_refl (ds : List Draft) : List.Forall₂ Draft.Marked ds ds :=
  List.forall₂_same.mpr fun d _ => .refl d

/-! ## What becomes of a workspace -/

namespace Workspace

/-- How a workspace may change while its innermost function is worked on. -/
structure WorksOn (w w' : Workspace) : Prop where
  constants : Keeps w.draft.constants w'.draft.constants
  pc : w.draft.pc ≤ w'.draft.pc
  around : List.Forall₂ Draft.Marked w.enclosing w'.enclosing

variable {w w' w'' : Workspace}

theorem WorksOn.refl (w : Workspace) : w.WorksOn w :=
  ⟨.refl _, Nat.le_refl _, forall₂_marked_refl _⟩

theorem WorksOn.trans (h₁ : w.WorksOn w') (h₂ : w'.WorksOn w'') : w.WorksOn w'' := by
  refine ⟨h₁.constants.trans h₂.constants, Nat.le_trans h₁.pc h₂.pc, ?_⟩
  have haround := h₁.around
  have haround' := h₂.around
  generalize w.enclosing = ds at haround ⊢
  generalize w'.enclosing = ds' at haround haround'
  generalize w''.enclosing = ds'' at haround' ⊢
  induction haround generalizing ds'' with
  | nil =>
    cases haround'
    exact .nil
  | cons hd _ ih =>
    cases haround' with
    | cons hd' hds' => exact .cons (hd.trans hd') (ih _ hds')

/-- While a function inside is written, those that wait for it are only marked. -/
theorem WorksOn.stack (h : w.enter.WorksOn w') :
    w.draft.Marked w'.leave.draft ∧ List.Forall₂ Draft.Marked w.enclosing w'.leave.enclosing := by
  have haround : List.Forall₂ Draft.Marked (w.draft :: w.enclosing) w'.enclosing := h.around
  unfold Workspace.leave
  split
  · next hnil =>
    rw [hnil] at haround
    cases haround
  · next hcons =>
    rw [hcons] at haround
    exact List.forall₂_cons.mp haround

theorem WorksOn.marked (h : w.enter.WorksOn w') : w.draft.Marked w'.leave.draft := h.stack.1

theorem WorksOn.leave (h : w.enter.WorksOn w') : w.WorksOn w'.leave :=
  ⟨h.marked.constants ▸ .refl _, Nat.le_of_eq h.marked.pc.symm, h.stack.2⟩

end Workspace

/-! ## Outer variables -/

/-- The search for an outer variable only marks the functions on its way. -/
structure Resolution.Marks (d : Draft) (enclosing : List Draft) (r : Resolution) : Prop where
  draft : d.Marked r.draft
  around : List.Forall₂ Draft.Marked enclosing r.enclosing

theorem addCapture_marks {d : Draft} (c : Capture) {enclosing enclosing' : List Draft}
    (h : List.Forall₂ Draft.Marked enclosing enclosing') :
    (d.addCapture c enclosing').Marks d enclosing := by
  unfold Draft.addCapture
  split
  · exact ⟨⟨rfl, .refl _ _, .push _ _⟩, h⟩
  · exact ⟨.refl d, h⟩

theorem resolve_marks (x : String) (enclosing : List Draft) :
    ∀ d : Draft, (d.resolve x enclosing).Marks d enclosing := by
  induction enclosing with
  | nil =>
    intro d
    unfold Draft.resolve
    split <;> exact ⟨.refl d, .nil⟩
  | cons parent rest ih =>
    intro d
    have hparent := ih parent
    unfold Draft.resolve
    split
    · exact ⟨.refl d, forall₂_marked_refl _⟩
    · dsimp only
      split
      · next hx =>
        split
        · have hcaptured := Draft.marked_capture (Draft.mem_seen.mpr ⟨x, hx⟩)
          exact addCapture_marks _ (.cons hcaptured (forall₂_marked_refl _))
        · exact ⟨.refl d, forall₂_marked_refl _⟩
      · split
        · exact addCapture_marks _ (.cons hparent.draft hparent.around)
        · exact ⟨.refl d, .cons hparent.draft hparent.around⟩
        · exact ⟨.refl d, .cons hparent.draft hparent.around⟩

/-! ## Histories -/

theorem worksOn_lasting : Lasting Workspace.WorksOn where
  refl := .refl
  trans := .trans
  draft := fun _ _ hconstants hpc _ => ⟨hconstants, hpc, forall₂_marked_refl _⟩
  event := fun _ _ => ⟨.refl _, Nat.le_refl _, forall₂_marked_refl _⟩
  resolve := fun w x =>
    have hmarks := resolve_marks x w.enclosing w.draft
    ⟨hmarks.draft.constants ▸ .refl _, Nat.le_of_eq hmarks.draft.pc.symm, hmarks.around⟩
  leave := .leave

theorem History.worksOn {w w' : Workspace} (h : History w w') : w.WorksOn w' :=
  h.lasts worksOn_lasting

end LuaLowering
