import LuaLowering.Proofs.Vetting.Steps

/-!
# Vetting scopes

Statements declare locals in the innermost scope and may open scopes of their
own, which they leave again. `Workspace.Adds` says what is different afterwards:
only the declarations of a list, on top of what there was. What a name stood for
before is not lost. It is what undoing those declarations one by one leads back to,
and leaving a scope is exactly this undoing.
-/

namespace LuaLowering

open LowerM

variable {α : Type} {w w' w₁ w₂ : Workspace} {new old : NameMap} {os : List Offence} {s : Scope}
  {outer : List Scope} {xs : List String} {breakable : Bool}

/-! ## The frames of scopes -/

namespace Scope

/-- A scope without its pending breaks. -/
def frame (s : Scope) : List Nat × Bool := (s.locals, s.breaks.isSome)

/-- The scopes that are open, without their pending breaks. -/
def frames (scopes : List Scope) : List (List Nat × Bool) := scopes.map frame

@[simp] theorem frames_cons (s : Scope) (rest : List Scope) :
    frames (s :: rest) = s.frame :: frames rest := rfl

@[simp] theorem frames_addBreaks (bs : List OpenBreak) (scopes : List Scope) :
    frames (addBreaks bs scopes) = frames scopes := by
  induction scopes with
  | nil => rfl
  | cons s rest ih => cases hs : s.breaks <;> simp [addBreaks, frame, hs, ih]

@[simp] theorem frames_raiseBreaks (depth close : Nat) (scopes : List Scope) :
    frames (raiseBreaks depth close scopes) = frames scopes := by
  induction scopes with
  | nil => rfl
  | cons s rest ih => cases hs : s.breaks <;> simp [raiseBreaks, frame, hs, ih]

theorem inLoop_eq (scopes : List Scope) : inLoop scopes = (frames scopes).any (·.2) := by
  rw [inLoop, frames, List.any_map]
  rfl

/-- Locals added to scopes with the same frames. -/
theorem frames_addLocals {scopes scopes' : List Scope} (h : frames scopes' = frames scopes)
    (is : List Nat) : frames (addLocals is scopes') = frames (addLocals is scopes) := by
  cases scopes with
  | nil =>
    obtain rfl : scopes' = [] := List.map_eq_nil_iff.mp h
    rfl
  | cons s rest =>
    cases scopes' with
    | nil => cases h
    | cons s' rest' =>
      simp only [frames_cons, List.cons.injEq, frame, Prod.mk.injEq] at h
      simp [addLocals, frame, h.1.1, h.1.2, h.2]

/-- The scopes have got locals, and breaks that wait with the innermost loop. What was open and
what was pending stays, in its order. -/
def Extends (is : List Nat) (scopes scopes' : List Scope) : Prop :=
  ∃ bs : List OpenBreak, (∀ b ∈ bs, b.depth < scopes.length) ∧
    scopes' = addBreaks bs (addLocals is scopes)

section

variable {scopes scopes₁ scopes₂ : List Scope} {is is' : List Nat}

theorem extends_locals (is : List Nat) (scopes : List Scope) :
    Extends is scopes (addLocals is scopes) :=
  ⟨[], fun _ hb => absurd hb List.not_mem_nil, (addBreaks_nil _).symm⟩

theorem extends_refl (scopes : List Scope) : Extends [] scopes scopes :=
  ⟨[], fun _ hb => absurd hb List.not_mem_nil, by rw [addLocals_nil, addBreaks_nil]⟩

theorem Extends.below (h : Extends is scopes scopes₁) (hb : BreaksBelow scopes.length scopes) :
    BreaksBelow scopes₁.length scopes₁ := by
  obtain ⟨bs, hbs, rfl⟩ := h
  rw [length_addBreaks, length_addLocals]
  exact (hb.addLocals is).addBreaks hbs

theorem Extends.trans (h₁ : Extends is scopes scopes₁) (h₂ : Extends is' scopes₁ scopes₂) :
    Extends (is' ++ is) scopes scopes₂ := by
  obtain ⟨bs, hbs, rfl⟩ := h₁
  obtain ⟨bs', hbs', rfl⟩ := h₂
  rw [length_addBreaks, length_addLocals] at hbs'
  refine ⟨bs' ++ bs, fun b hb => ?_, ?_⟩
  · rcases List.mem_append.mp hb with hb | hb
    · exact hbs' b hb
    · exact hbs b hb
  · rw [addLocals_addBreaks, addLocals_addLocals, addBreaks_addBreaks]

/-- Once a loop is left, its breaks are gone with it. -/
theorem Extends.closed_loop (h : Extends is (opened true :: scopes) (s :: outer)) :
    outer = scopes := by
  obtain ⟨bs, -, heq⟩ := h
  rw [addLocals, addBreaks_cons_loop rfl] at heq
  exact (List.cons.inj heq).2

/-- Once another scope is left, the breaks inside wait further out. -/
theorem Extends.closed_plain (close : Nat) (h : Extends is (opened false :: scopes) (s :: outer))
    (hb : BreaksBelow scopes.length scopes) :
    Extends [] scopes (raiseBreaks outer.length close outer) := by
  obtain ⟨bs, -, heq⟩ := h
  rw [addLocals, addBreaks_cons_plain rfl] at heq
  obtain rfl := (List.cons.inj heq).2
  rw [length_addBreaks, raiseBreaks_addBreaks close bs hb]
  cases scopes with
  | nil => exact extends_refl []
  | cons t rest =>
    refine ⟨bs.map (raise (t :: rest).length close), fun b hb => ?_, by rw [addLocals_nil]⟩
    obtain ⟨b', -, rfl⟩ := List.mem_map.mp hb
    exact depth_raise_lt b' close (Nat.succ_pos _)

end

end Scope

/-! ## Undoing declarations -/

namespace NameMap

theorem find?_insert_eq_update (names : NameMap) (x : String) (i : Nat) :
    (fun y => (names.insert x i).find? y) =
      Function.update (fun y => names.find? y) x (some i) := by
  funext y
  rw [find?_insert, Function.update_apply]
  simp only [eq_comm]

theorem find?_restore_eq_update (names : NameMap) (x : String) (i : Option Nat) :
    (fun y => (names.restore x i).find? y) = Function.update (fun y => names.find? y) x i := by
  funext y
  rw [find?_restore, Function.update_apply]
  simp only [eq_comm]

end NameMap

namespace Draft

variable {d d' : Draft} {f g h : String → Option Nat}

/-- What each name stands for. -/
def reading (d : Draft) : String → Option Nat := fun x => d.visible.find? x

theorem reading_congr (hv : d'.visible = d.visible) : d'.reading = d.reading := by
  unfold reading
  rw [hv]

/-- Undoing the declarations of a list, the latest first, leads from one reading
of names to another. -/
def Undoes (d : Draft) : NameMap → (String → Option Nat) → (String → Option Nat) → Prop
  | [], f, g => f = g
  | (x, i) :: rest, f, g => ∃ v, d.declarationAt? i = some v ∧ v.name = x ∧
      d.Undoes rest (Function.update f x v.shadowed) g

theorem Undoes.append (hnew : d.Undoes new f g) (hold : d.Undoes old g h) :
    d.Undoes (new ++ old) f h := by
  induction new generalizing f with
  | nil =>
    obtain rfl : f = g := hnew
    exact hold
  | cons p rest ih =>
    obtain ⟨v, hv, hname, hrest⟩ := hnew
    exact ⟨v, hv, hname, ih hrest⟩

theorem Undoes.mono (hu : d.Undoes new f g)
    (hkeep : ∀ i v, d.declarationAt? i = some v → d'.declarationAt? i = some v) :
    d'.Undoes new f g := by
  induction new generalizing f with
  | nil => exact hu
  | cons p rest ih =>
    obtain ⟨v, hv, hname, hrest⟩ := hu
    exact ⟨v, hkeep _ v hv, hname, ih hrest⟩

/-- A name that none of the declarations has stands for the same as before. -/
theorem Undoes.apply_eq (hu : d.Undoes new f g) {x : String} (hx : x ∉ new.map (·.1)) :
    f x = g x := by
  induction new generalizing f with
  | nil => exact congrFun hu x
  | cons p rest ih =>
    obtain ⟨v, -, -, hrest⟩ := hu
    rw [List.map_cons, List.mem_cons, not_or] at hx
    rw [← ih hrest hx.2, Function.update_of_ne hx.1]

end Draft

/-! ## What a statement adds -/

namespace Workspace

/-- The declarations of a list were added to the innermost scope, and each took a
register. -/
structure Adds (new : NameMap) (w w' : Workspace) : Prop where
  used : w'.used = w.used + new.length
  frames : Scope.frames w'.draft.scopes =
    Scope.frames (Scope.addLocals (new.map (·.2)) w.draft.scopes)
  pending : Scope.BreaksBelow w.draft.scopes.length w.draft.scopes →
    Scope.Extends (new.map (·.2)) w.draft.scopes w'.draft.scopes
  names : w'.draft.Undoes new w'.draft.reading w.draft.reading
  declared : ∀ i v, w.draft.declarationAt? i = some v → w'.draft.declarationAt? i = some v
  enclosing : List.Forall₂ Draft.Waits w.enclosing w'.enclosing

/-- Locals of these names were declared in the innermost scope. -/
def Declares (names : List String) (w w' : Workspace) : Prop :=
  ∃ new : NameMap, w.Adds new w' ∧ new.map (·.1) = names.reverse

theorem Alike.adds (h : w.Alike w') (hused : w'.used = w.used) : w.Adds [] w' where
  used := hused
  frames := by rw [h.draft.scopes, List.map_nil, Scope.addLocals_nil]
  pending := fun _ => h.draft.scopes ▸ Scope.extends_refl _
  names := Draft.reading_congr h.draft.visible
  declared := fun i v hv => (h.draft.declared i).trans hv
  enclosing := h.enclosing

theorem Adds.trans (h₁ : w.Adds old w₁) (h₂ : w₁.Adds new w₂) : w.Adds (new ++ old) w₂ where
  used := by rw [h₂.used, h₁.used, List.length_append]; omega
  frames := by
    rw [h₂.frames, Scope.frames_addLocals h₁.frames, Scope.addLocals_addLocals, List.map_append]
  pending := fun hw => by
    have hext := h₁.pending hw
    rw [List.map_append]
    exact hext.trans (h₂.pending (hext.below hw))
  names := h₂.names.append (h₁.names.mono h₂.declared)
  declared := fun i v hv => h₂.declared i v (h₁.declared i v hv)
  enclosing := Draft.forall₂_waits_trans h₁.enclosing h₂.enclosing

theorem Adds.inLoop (h : w.Adds new w') :
    Scope.inLoop w'.draft.scopes = Scope.inLoop w.draft.scopes := by
  rw [Scope.inLoop_eq, h.frames, ← Scope.inLoop_eq, Scope.inLoop_addLocals]

theorem Alike.declares (h : w.Alike w') (hused : w'.used = w.used) : w.Declares [] w' :=
  ⟨[], h.adds hused, rfl⟩

theorem Declares.trans {ys : List String} (h₁ : w.Declares xs w₁) (h₂ : w₁.Declares ys w₂) :
    w.Declares (xs ++ ys) w₂ := by
  obtain ⟨old, hold, hxs⟩ := h₁
  obtain ⟨new, hnew, hys⟩ := h₂
  exact ⟨new ++ old, hold.trans hnew, by rw [List.map_append, hys, hxs, List.reverse_append]⟩

theorem Declares.inLoop (h : w.Declares xs w') :
    Scope.inLoop w'.draft.scopes = Scope.inLoop w.draft.scopes := by
  obtain ⟨new, hnew, -⟩ := h
  exact hnew.inLoop

theorem Declares.alike (h : w.Declares xs w₁) (ha : w₁.Alike w₂) (hused : w₂.used = w₁.used) :
    w.Declares xs w₂ :=
  List.append_nil xs ▸ h.trans (ha.declares hused)

theorem Alike.andDeclares (ha : w.Alike w₁) (hused : w₁.used = w.used) (h : w₁.Declares xs w₂) :
    w.Declares xs w₂ := (ha.declares hused).trans h

end Workspace

/-- A change of the function being written that keeps its upvalues. -/
theorem vets_update_bind {g : Draft → Draft} {k : Unit → LowerM α} {Q : α → Workspace → Prop}
    (hup : (g w.draft).upvalues = w.draft.upvalues)
    (h : Vets (k ()) { w with draft := g w.draft } os Q) : Vets (update g >>= k) w os Q := by
  have hg : w.SeesGlobals → ({ w with draft := g w.draft } : Workspace).SeesGlobals :=
    fun hw => hw.keeps (hup ▸ .refl _) (Draft.forall₂_waits_refl _)
  have hone : Vets (update g) w [] fun _ w' => w' = { w with draft := g w.draft } := ⟨rfl, hg, rfl⟩
  refine hone.andThen fun _ w₁ hw₁ => ?_
  rw [hw₁]
  exact h

/-- A local takes the next register and comes before all others. -/
theorem declareLocal_vets (x : String) (startPc : Nat) (w : Workspace) :
    Vets (declareLocal x startPc) w [] fun _ w' => w.Declares [x] w' := by
  unfold declareLocal
  refine (takeRegister_vets w).andThen fun slot w₁ h₁ => ?_
  obtain ⟨halike, -, hused⟩ := h₁
  refine vets_update_bind rfl (vets_pure.mpr ⟨rfl, ?_⟩)
  have hread : w₁.draft.reading = w.draft.reading := Draft.reading_congr halike.draft.visible
  have hnew : (w₁.draft.declare x slot startPc).declarationAt? w₁.draft.locals.size = some
      { name := x, slot, startPc, endPc := startPc, shadowed := w₁.draft.visible.find? x } := by
    simp [Draft.declarationAt?, Draft.declare, Local.declared]
  have hscopes : (w₁.draft.declare x slot startPc).scopes =
      Scope.addLocals [w₁.draft.locals.size] w.draft.scopes := by
    rw [Draft.declare, halike.draft.scopes]
    cases w.draft.scopes <;> rfl
  refine ⟨[(x, w₁.draft.locals.size)], ⟨hused, congrArg Scope.frames hscopes,
    fun _ => hscopes ▸ Scope.extends_locals _ _, ⟨_, hnew, rfl, ?_⟩, fun i v hv => ?_,
    halike.enclosing⟩, rfl⟩
  · show Function.update (fun y => (w₁.draft.visible.insert x w₁.draft.locals.size).find? y) x
      (w₁.draft.reading x) = w.draft.reading
    rw [NameMap.find?_insert_eq_update, Function.update_idem, ← hread]
    exact Function.update_eq_self x w₁.draft.reading
  · rw [← halike.draft.declared] at hv
    obtain ⟨u, hu, -⟩ := Draft.exists_of_declarationAt? hv
    rw [← hv]
    exact Draft.declarationAt?_push (Array.getElem?_eq_some_iff.mp hu).1 rfl

theorem declareLocals_vets (startPc : Nat) (names : List String) :
    ∀ w, Vets (declareLocals startPc names) w [] fun _ w' => w.Declares names w' := by
  induction names with
  | nil => exact fun w => vets_pure.mpr ⟨rfl, (Workspace.Alike.refl w).declares rfl⟩
  | cons x rest ih =>
    intro w
    refine (declareLocal_vets x startPc w).andThen fun _ w₁ h₁ => ?_
    exact (ih w₁).mono fun _ w₂ h₂ => h₁.trans h₂

/-! ## Opening and leaving scopes -/

/-- A scope was opened and nothing else changed. -/
structure Workspace.Opens (breakable : Bool) (w w' : Workspace) : Prop where
  scopes : w'.draft.scopes = .opened breakable :: w.draft.scopes
  visible : w'.draft.visible = w.draft.visible
  declared : ∀ i, w'.draft.declarationAt? i = w.draft.declarationAt? i
  used : w'.used = w.used
  enclosing : List.Forall₂ Draft.Waits w.enclosing w'.enclosing

theorem openScope_vets (breakable : Bool) (w : Workspace) :
    Vets (openScope breakable) w [] fun _ w' => w.Opens breakable w' :=
  ⟨rfl, id, rfl, rfl, fun _ => rfl, rfl, Draft.forall₂_waits_refl _⟩

theorem Workspace.Opens.inLoop (h : w.Opens breakable w') :
    Scope.inLoop w'.draft.scopes = (breakable || Scope.inLoop w.draft.scopes) := by
  rw [h.scopes]
  cases breakable <;> rfl

theorem patchBreaks_neutral (close target : Nat) (bs : List OpenBreak) :
    Neutral (patchBreaks close target bs) [] := by
  induction bs with
  | nil => exact neutral_pure ()
  | cons b rest ih =>
    refine Neutral.andThen ?_ fun _ => ih
    exact (offsetBetween_neutral b.pc target).andThen fun _ =>
      (setInstruction_neutral b.pc _).andThen fun _ => record_neutral _

/-- Ending locals undoes their declarations and gives back their registers. -/
theorem endLocals_vets (endPc : Nat) {g : String → Option Nat} : ∀ {new : NameMap} {w : Workspace},
    w.draft.Undoes new w.draft.reading g →
      Vets (endLocals endPc (new.map (·.2))) w [] fun _ w' =>
        w'.draft.scopes = w.draft.scopes ∧ w'.draft.reading = g ∧ w'.used + new.length = w.used ∧
          (∀ i, w'.draft.declarationAt? i = w.draft.declarationAt? i) ∧
          List.Forall₂ Draft.Waits w.enclosing w'.enclosing := by
  intro new
  induction new with
  | nil =>
    intro w hundo
    exact vets_pure.mpr ⟨rfl, rfl, hundo, rfl, fun _ => rfl, Draft.forall₂_waits_refl _⟩
  | cons p rest ih =>
    intro w hundo
    obtain ⟨x, i⟩ := p
    obtain ⟨u, hu, rfl, hrest⟩ := hundo
    obtain ⟨v, hv, rfl⟩ := Draft.exists_of_declarationAt? hu
    have hlocal : Vets (localAt i) w [] fun v' w' => v' = v ∧ w' = w := by
      unfold localAt
      rw [vets_view_bind, hv]
      exact vets_pure.mpr ⟨rfl, rfl, rfl⟩
    rw [List.map_cons, endLocals, endLocal, bind_assoc]
    refine hlocal.andThen fun v' w' h => ?_
    obtain ⟨rfl, rfl⟩ := h
    rw [bind_assoc]
    refine vets_update_bind rfl ((release_vets v'.slot _).andThen fun _ w₁ h₁ => ?_)
    obtain ⟨halike, hused⟩ := h₁
    have hread : w₁.draft.reading = Function.update w'.draft.reading v'.name v'.shadowed := by
      rw [Draft.reading_congr halike.draft.visible]
      exact NameMap.find?_restore_eq_update _ _ _
    have hdecl : ∀ j, w₁.draft.declarationAt? j = w'.draft.declarationAt? j := fun j =>
      (halike.draft.declared j).trans (Draft.declarationAt?_endLocal hv endPc j)
    have hundo₁ : w₁.draft.Undoes rest w₁.draft.reading g := by
      rw [hread]
      exact Draft.Undoes.mono hrest fun j v hj => (hdecl j).trans hj
    refine (ih hundo₁).mono fun _ w₂ h₂ => ?_
    obtain ⟨hscopes, hread₂, hused₂, hdecl₂, henc₂⟩ := h₂
    refine ⟨hscopes.trans halike.draft.scopes, hread₂, ?_, fun j => (hdecl₂ j).trans (hdecl j),
      Draft.forall₂_waits_trans halike.enclosing henc₂⟩
    have hcount : w₁.used + 1 = w'.used := hused
    rw [List.length_cons]
    omega

/-- Leaving a scope leads back to what there was before it was opened. -/
theorem closeScope_vets (ho : w.Opens breakable w₁) (ha : w₁.Adds new w₂) (endPc : Nat) :
    Vets (closeScope endPc) w₂ [] fun _ w' => w.Adds [] w' := by
  have hframes := ha.frames
  rw [ho.scopes] at hframes
  have hundo : w₂.draft.Undoes new w₂.draft.reading w.draft.reading :=
    Draft.reading_congr ho.visible ▸ ha.names
  unfold closeScope
  refine (closeLevel_neutral.vets w₂).andThen fun close w₃ h₃ => ?_
  obtain ⟨h₃, hused₃⟩ := h₃
  have hundo₃ : w₃.draft.Undoes new w₃.draft.reading w.draft.reading := by
    rw [Draft.reading_congr h₃.draft.visible]
    exact hundo.mono fun i v hv => (h₃.draft.declared i).trans hv
  rw [vets_view_bind, h₃.draft.scopes]
  cases hs : w₂.draft.scopes with
  | nil =>
    rw [hs] at hframes
    cases hframes
  | cons s outer =>
    rw [hs, Scope.addLocals] at hframes
    simp only [Scope.frames_cons, List.cons.injEq, Scope.frame, Prod.mk.injEq, Scope.opened,
      List.append_nil] at hframes
    obtain ⟨⟨hlocals, hkind⟩, houter⟩ := hframes
    have hpending : Scope.BreaksBelow w.draft.scopes.length w.draft.scopes →
        Scope.Extends (new.map (·.2)) (.opened breakable :: w.draft.scopes) (s :: outer) := by
      intro hw
      have hbelow : Scope.BreaksBelow w₁.draft.scopes.length w₁.draft.scopes := by
        rw [ho.scopes]
        exact hw.opened breakable
      rw [← hs, ← ho.scopes]
      exact ha.pending hbelow
    -- what is left once the scopes are as outside, for both kinds of scope
    have hend : ∀ w₄ : Workspace, Scope.frames w₄.draft.scopes = Scope.frames outer →
        (Scope.BreaksBelow w.draft.scopes.length w.draft.scopes →
          Scope.Extends [] w.draft.scopes w₄.draft.scopes) →
        w₄.draft.reading = w₃.draft.reading → w₄.used = w₃.used →
        (∀ i, w₄.draft.declarationAt? i = w₃.draft.declarationAt? i) →
        List.Forall₂ Draft.Waits w₃.enclosing w₄.enclosing →
        Vets (do endLocals endPc s.locals; record (.scopeClosed (outer.length + 1) endPc)) w₄ []
          fun _ w' => w.Adds [] w' := by
      intro w₄ hf₄ hpending₄ hread₄ hused₄ hdecl₄ henc₄
      have hundo₄ : w₄.draft.Undoes new w₄.draft.reading w.draft.reading := by
        rw [hread₄]
        exact hundo₃.mono fun i v hv => (hdecl₄ i).trans hv
      rw [hlocals]
      refine (endLocals_vets endPc hundo₄).andThen fun _ w₅ h₅ => ?_
      obtain ⟨hscopes₅, hread₅, hused₅, hdecl₅, henc₅⟩ := h₅
      refine ((record_neutral _).vets w₅).mono fun _ w₆ h₆ => ?_
      obtain ⟨h₆, hused₆⟩ := h₆
      refine ⟨?_, ?_, fun hw => ?_, ?_, fun i v hv => ?_, ?_⟩
      · have hadd := ha.used
        have hopen := ho.used
        rw [List.length_nil]
        omega
      · rw [h₆.draft.scopes, hscopes₅, hf₄, houter, List.map_nil, Scope.addLocals_nil]
      · rw [h₆.draft.scopes, hscopes₅]
        exact hpending₄ hw
      · exact (Draft.reading_congr h₆.draft.visible).trans hread₅
      · rw [← ho.declared] at hv
        rw [h₆.draft.declared, hdecl₅, hdecl₄, h₃.draft.declared]
        exact ha.declared i v hv
      · have hto := Draft.forall₂_waits_trans ho.enclosing ha.enclosing
        have hfrom := Draft.forall₂_waits_trans henc₄ (Draft.forall₂_waits_trans henc₅ h₆.enclosing)
        exact Draft.forall₂_waits_trans hto (Draft.forall₂_waits_trans h₃.enclosing hfrom)
    dsimp only
    cases hb : s.breaks with
    | some breaks =>
      dsimp only
      refine vets_update_bind rfl ?_
      rw [vets_here_bind]
      refine ((patchBreaks_neutral close _ breaks.reverse).vets _).andThen fun _ w₄ h₄ => ?_
      obtain ⟨h₄, hused₄⟩ := h₄
      refine hend w₄ (by rw [h₄.draft.scopes]) (fun hw => ?_) (Draft.reading_congr h₄.draft.visible)
        hused₄ h₄.draft.declared h₄.enclosing
      obtain rfl : breakable = true := by simpa [hb] using hkind.symm
      rw [h₄.draft.scopes]
      exact (hpending hw).closed_loop ▸ Scope.extends_refl _
    | none =>
      dsimp only
      refine vets_update_bind rfl ?_
      refine hend _ (Scope.frames_raiseBreaks _ _ _) (fun hw => ?_) rfl rfl (fun _ => rfl)
        (Draft.forall₂_waits_refl _)
      obtain rfl : breakable = false := by simpa [hb] using hkind.symm
      exact (hpending hw).closed_plain close hw

end LuaLowering
