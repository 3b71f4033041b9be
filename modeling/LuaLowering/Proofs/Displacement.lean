import LuaLowering.Proofs.Displacement.Constructs

/-!
# Code does not depend on its position

Jumps hold the distance to their targets and nothing else in the code is a position, so
what is written for a statement should not depend on what was written before it. But it
is computed from positions throughout: where a loop began, which jumps wait for a target,
where the range of a local ends. A position taken from the wrong place, or a distance
checked against the wrong end, would show in code that is right in one place and wrong in
another.

`Workspace.Displaced` says of two workspaces that they differ in nothing but the code so
far and the positions in it. Lowering ends in the same way in both, a failure included,
and adds the same to both. The positions that are recorded on the way, in ranges and with
pending breaks, are as far apart as the ends of the code were.
-/

namespace LuaLowering

open LowerM

namespace Workspace

/-- Two workspaces that are the same but for the code, whose length and content may differ, and for
what is known of positions. Pending breaks stand at the same distance from the end of the code. -/
structure Displaced (w v : Workspace) : Prop where
  options : v.options = w.options
  enclosing : v.enclosing = w.enclosing
  registers : v.draft.registers = w.draft.registers
  visible : v.draft.visible = w.draft.visible
  upvalues : v.draft.upvalues = w.draft.upvalues
  constants : v.draft.constants = w.draft.constants
  nested : v.draft.nested = w.draft.nested
  line : v.draft.line = w.draft.line
  locals : v.draft.locals.map Local.timeless = w.draft.locals.map Local.timeless
  scopes : List.Forall₂ (Twins.mk w.draft v.draft).Scopes w.draft.scopes v.draft.scopes

/-- What was added to the one workspace was added to the other. -/
structure AddsAlike (w v w' v' : Workspace) : Prop where
  displaced : w'.Displaced v'
  code : ∃ added, w'.draft.code = w.draft.code ++ added ∧ v'.draft.code = v.draft.code ++ added
  lines : ∃ added, w'.draft.lines = w.draft.lines ++ added ∧ v'.draft.lines = v.draft.lines ++ added
  ranges : ∀ i x y, w'.draft.locals[i]? = some x → v'.draft.locals[i]? = some y →
    (Twins.mk w.draft v.draft).Aligned i → (Twins.mk w.draft v.draft).Ranges x y

/-- Two steps ended in the same way, and what they added is the same. -/
inductive EndsAlike {α : Type} (w v : Workspace) (r s : EStateM.Result Stop Workspace α) : Prop
  | finished (x : α) {w' v' : Workspace} (hr : r = .ok x w') (hs : s = .ok x v')
      (h : w.AddsAlike v w' v')
  | stopped (stop : Stop) {w' v' : Workspace} (hr : r = .error stop w') (hs : s = .error stop v')
      (h : w.AddsAlike v w' v')

/-- The places where displaced workspaces add code. -/
def sites (w v : Workspace) : Sites := ⟨⟨w.draft, v.draft⟩, .same⟩

variable {w v w' v' : Workspace} {k m : Nat}

theorem Displaced.start (h : w.Displaced v) : (w.sites v).Workspaces 0 0 w v := by
  refine ⟨h.options, h.enclosing.symm, ?_⟩
  exact {
    registers := h.registers
    visible := h.visible
    upvalues := h.upvalues
    constants := h.constants
    nested := h.nested
    line := h.line
    header := fun hheader => hheader
    code := ⟨[], rfl, (List.append_nil _).symm, (List.append_nil _).symm⟩
    lines := ⟨[], (List.append_nil _).symm, (List.append_nil _).symm⟩
    locals := by
      intro i
      have hi := congrArg (·[i]?) h.locals
      simp only [Array.getElem?_map] at hi
      cases hx : w.draft.locals[i]? with
      | none =>
        rw [hx] at hi
        rw [Option.map_eq_none_iff.mp hi]
        exact .none
      | some x =>
        rw [hx] at hi
        obtain ⟨y, hy, htimeless⟩ := Option.map_eq_some_iff.mp hi
        rw [hy]
        exact .some ⟨htimeless, fun haligned => haligned x y hx hy⟩
    scopes := h.scopes
    inner := fun s hs => absurd hs List.not_mem_nil }

theorem addsAlike_of_workspaces (h : (w.sites v).Workspaces k m w' v') : w.AddsAlike v w' v' where
  displaced := {
    options := h.options
    enclosing := h.enclosing.symm
    registers := h.draft.registers
    visible := h.draft.visible
    upvalues := h.draft.upvalues
    constants := h.draft.constants
    nested := h.draft.nested
    line := h.draft.line
    locals := h.draft.locals.map_timeless
    scopes := h.draft.scopes_at_end }
  code := by
    obtain ⟨added, -, hw, hv⟩ := h.draft.code
    exact ⟨added.toArray, by rw [← Array.toList_inj, hw, Array.toList_append]; rfl,
      by rw [← Array.toList_inj, hv, Array.toList_append]; rfl⟩
  lines := by
    obtain ⟨added, hw, hv⟩ := h.draft.lines
    exact ⟨added.toArray, by rw [← Array.toList_inj, hw, Array.toList_append]; rfl,
      by rw [← Array.toList_inj, hv, Array.toList_append]; rfl⟩
  ranges := by
    intro i x y hx hy haligned
    have hi := h.draft.locals i
    rw [hx, hy] at hi
    cases hi with
    | some hxy => exact hxy.range haligned

theorem Displaced.endsAlike_of_steady {α : Type} {p : LowerM α} (h : w.Displaced v)
    (hp : Sites.Steady α p) : w.EndsAlike v (p w) (p v) := by
  cases hp (w.sites v) 0 0 h.start with
  | ok hr hs _ hw hxy =>
    subst hxy
    exact .finished _ hr hs (addsAlike_of_workspaces hw)
  | stopped hr hs hw => exact .stopped _ hr hs (addsAlike_of_workspaces hw)

/-- Whatever was written before, a statement, a block or an expression is lowered to the same
code. -/
theorem Displaced.lower_endsAlike (h : w.Displaced v) :
    (∀ s : Stat, w.EndsAlike v (s.lower w) (s.lower v)) ∧
    (∀ b : Block, w.EndsAlike v (b.lower w) (b.lower v)) ∧
    ∀ (e : Expr) (a : Nat) (want : Int), w.EndsAlike v (e.lower a want w) (e.lower a want v) := by
  have hsteady := Sites.steady_constructwise
  refine ⟨fun s => ?_, fun b => ?_, fun e a want => ?_⟩
  · exact h.endsAlike_of_steady (Constructwise.stat hsteady s)
  · exact h.endsAlike_of_steady (Constructwise.block hsteady b)
  · exact h.endsAlike_of_steady (Constructwise.expr hsteady e a want)

/-- Behind one instruction and behind three, a loop has a break pending and comes to an arm with a
loop of its own, which declares a local, and two breaks. -/
theorem Displaced.lower_endsAlike_of_pending :
    let behind (code : List Instruction) : Workspace :=
      { Workspace.main {} with
        draft := { Draft.main {} with
          scopes := [{ breaks := some [⟨code.length, 1, 0⟩] }, {}]
          code := (code ++ [Instruction.asbx .jmp 0 0]).toArray
          lines := (code.map fun _ => 1).toArray.push 2 } }
    let w := behind []
    let v := behind [.abc .move 0 1 0, .abc .move 1 0 0]
    let inner : Stat :=
      .repeatLoop ⟨[.declare ["y"] [.integer 7] 4, .break 4], none, 5⟩ (.name "y") 5
    let s : Stat := .ifChain [⟨.name "x", ⟨[inner, .break 6], none, 6⟩, 3⟩]
    let ranges (w : Workspace) := w.draft.locals.toList.map fun x => (x.startPc, x.endPc)
    let pending (w : Workspace) := w.draft.scopes.filterMap (·.breaks.map (·.map (·.pc)))
    w.Displaced v ∧ ∃ w' v', s.lower w = .ok () w' ∧ s.lower v = .ok () v' ∧
      (w'.draft.pc, ranges w', pending w') = (9, [(5, 8)], [[8, 0]]) ∧
      (v'.draft.pc, ranges v', pending v') = (11, [(7, 10)], [[10, 2]]) ∧ w.AddsAlike v w' v' := by
  intro behind w v inner s ranges pending
  have hdisplaced : w.Displaced v := {
    options := rfl
    enclosing := rfl
    registers := rfl
    visible := rfl
    upvalues := rfl
    constants := rfl
    nested := rfl
    line := rfl
    locals := rfl
    scopes := .cons ⟨rfl, .some (.cons ⟨rfl, rfl, rfl⟩ .nil)⟩ (.cons ⟨rfl, .none⟩ .nil) }
  have hrun : (match s.lower w, s.lower v with
      | .ok _ w', .ok _ v' => decide (
          (w'.draft.pc, ranges w', pending w') = (9, [(5, 8)], [[8, 0]]) ∧
          (v'.draft.pc, ranges v', pending v') = (11, [(7, 10)], [[10, 2]]))
      | _, _ => false) = true := by decide +kernel
  refine ⟨hdisplaced, ?_⟩
  cases hdisplaced.lower_endsAlike.1 s with
  | @finished _ w' v' hr hs h =>
    rw [hr, hs] at hrun
    obtain ⟨hw, hv⟩ := of_decide_eq_true hrun
    exact ⟨w', v', hr, hs, hw, hv, h⟩
  | stopped _ hr hs _ =>
    rw [hr, hs] at hrun
    cases hrun

end Workspace

end LuaLowering
