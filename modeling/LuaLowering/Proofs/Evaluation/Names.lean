import LuaLowering.Proofs.Lasting
import LuaLowering.Proofs.Evaluation.Meaning

/-!
# Which names are known

Whether a name stands for a variable of a function further out does not depend on what
has been looked up before. A search finds a known name and no other, and it makes no
name known that was not, in any of the functions it passes. So the same names are known
at the two ends of every history.
-/

namespace LuaLowering

open LowerM

variable {d parent parent' : Draft} {c : Capture} {x : String} {enclosing : List Draft}

namespace Draft

theorem knows_nil (x : String) (d : Draft) : d.knows x [] = d.upvalues.any (·.name == x) := rfl

theorem knows_cons (x : String) (d parent : Draft) (rest : List Draft) :
    d.knows x (parent :: rest) =
      (d.upvalues.any (·.name == x) || (parent.visible.find? x).isSome || parent.knows x rest) :=
  rfl

/-- Of a function itself, only its upvalues matter. -/
theorem knows_congr {d' : Draft} (h : d'.upvalues = d.upvalues) (x : String)
    (enclosing : List Draft) : d'.knows x enclosing = d.knows x enclosing := by
  cases enclosing with
  | nil => rw [knows_nil, knows_nil, h]
  | cons parent rest => rw [knows_cons, knows_cons, h]

/-- A function knows the names of its upvalues. -/
theorem knows_of_mem (d : Draft) (hc : c ∈ d.upvalues) (enclosing : List Draft) :
    d.knows c.name enclosing = true := by
  have hany : d.upvalues.any (·.name == c.name) = true :=
    Array.any_eq_true'.mpr ⟨c, hc, beq_self_eq_true _⟩
  cases enclosing with
  | nil => exact hany
  | cons parent rest => rw [knows_cons, hany, Bool.true_or, Bool.true_or]

/-- Two stacks of functions in which the same names are known at each place. -/
def SameKnown : List Draft → List Draft → Prop
  | [], [] => True
  | d :: ds, d' :: ds' => (∀ x, d'.knows x ds' = d.knows x ds) ∧ SameKnown ds ds'
  | _, _ => False

namespace SameKnown

variable {d d' : Draft} {ds ds' ds'' : List Draft}

theorem knows (h : SameKnown (d :: ds) (d' :: ds')) (x : String) : d'.knows x ds' = d.knows x ds :=
  h.1 x

theorem refl : ∀ ds : List Draft, SameKnown ds ds
  | [] => trivial
  | _ :: ds => ⟨fun _ => rfl, refl ds⟩

theorem trans (h₁ : SameKnown ds ds') (h₂ : SameKnown ds' ds'') : SameKnown ds ds'' := by
  induction ds generalizing ds' ds'' with
  | nil =>
    cases ds' with
    | nil => exact h₂
    | cons => exact h₁.elim
  | cons d ds ih =>
    cases ds' with
    | nil => exact h₁.elim
    | cons d' ds' =>
      cases ds'' with
      | nil => exact h₂.elim
      | cons d'' ds'' =>
        exact ⟨fun x => (h₂.1 x).trans (h₁.1 x), ih h₁.2 h₂.2⟩

/-- A function whose upvalues stay, around which the same names are known. -/
theorem cons (hupvalues : d'.upvalues = d.upvalues) (hvisible : parent'.visible = parent.visible)
    (h : SameKnown (parent :: ds) (parent' :: ds')) :
    SameKnown (d :: parent :: ds) (d' :: parent' :: ds') := by
  refine ⟨fun x => ?_, h⟩
  rw [knows_cons, knows_cons, hupvalues, hvisible, h.knows x]

end SameKnown

end Draft

open Draft (SameKnown)

/-- What the search for an outer variable finds: an upvalue of that name if the name is
known, and nothing otherwise. Afterwards the same names are known. -/
structure Resolution.Finds (x : String) (d : Draft) (enclosing : List Draft) (r : Resolution) :
    Prop where
  draft : ∃ upvalues, r.draft = { d with upvalues }
  upvalues : Keeps d.upvalues r.draft.upvalues
  count : d.upvalues.size ≤ maxUpvalues → r.draft.upvalues.size ≤ maxUpvalues
  stack : SameKnown (d :: enclosing) (r.draft :: r.enclosing)
  found : ∀ u, r.index = .ok (some u) →
    d.knows x enclosing = true ∧ ∃ c, r.draft.upvalues[u]? = some c ∧ c.name = x
  missing : r.index = .ok none → d.knows x enclosing = false

/-- Where the search leaves a function as it is. -/
theorem Resolution.Finds.same {enclosing' : List Draft} {index : Except Stop (Option Nat)}
    (hstack : SameKnown (d :: enclosing) (d :: enclosing')) (hfound : ∀ u, index = .ok (some u) →
      d.knows x enclosing = true ∧ ∃ c, d.upvalues[u]? = some c ∧ c.name = x)
    (hmissing : index = .ok none → d.knows x enclosing = false) :
    (⟨index, d, enclosing'⟩ : Resolution).Finds x d enclosing :=
  ⟨⟨_, rfl⟩, .refl _, id, hstack, hfound, hmissing⟩

/-- A name that is known further out is added to the upvalues. -/
theorem addCapture_finds {rest rest' : List Draft} (hname : c.name = x)
    (hknown : d.knows x (parent :: rest) = true) (hvisible : parent'.visible = parent.visible)
    (hstack : SameKnown (parent :: rest) (parent' :: rest')) :
    (d.addCapture c (parent' :: rest')).Finds x d (parent :: rest) := by
  unfold Draft.addCapture
  split
  · next hlt =>
    refine ⟨⟨_, rfl⟩, .push _ _, fun _ => ?_, ⟨fun y => ?_, hstack⟩, fun u hu => ⟨hknown, ?_⟩,
      nofun⟩
    · show (d.upvalues.push c).size ≤ maxUpvalues
      rw [Array.size_push]
      exact hlt
    · rw [Draft.knows_cons, Draft.knows_cons, hvisible, hstack.knows y]
      show ((d.upvalues.push c).any (·.name == y) || _ || _) = _
      rw [Array.any_push]
      by_cases hy : c.name = y
      · rw [hname] at hy
        subst hy
        rw [Draft.knows_cons] at hknown
        rw [hknown, hname, beq_self_eq_true, Bool.or_true, Bool.true_or, Bool.true_or]
      · rw [beq_false_of_ne hy, Bool.or_false]
    · obtain rfl := Option.some.inj (Except.ok.inj hu)
      exact ⟨c, Array.getElem?_push_size, hname⟩
  · exact .same (.cons rfl hvisible hstack) (fun u hu => by cases hu) (fun h => by cases h)

/-- A name that is already among the upvalues is found at once. -/
theorem Resolution.Finds.own {i : Nat} (hi : d.upvalues.toList.findIdx? (·.name == x) = some i) :
    (⟨.ok (some i), d, enclosing⟩ : Resolution).Finds x d enclosing := by
  obtain ⟨hlt, hname, -⟩ := List.findIdx?_eq_some_iff_getElem.mp hi
  have hknown := d.knows_of_mem (Array.getElem_mem hlt) enclosing
  rw [show (d.upvalues[i]).name = x from beq_iff_eq.mp hname] at hknown
  refine .same (.refl _) (fun u hu => ⟨hknown, ?_⟩) nofun
  obtain rfl := Option.some.inj (Except.ok.inj hu)
  exact ⟨d.upvalues[i], Array.getElem?_eq_getElem hlt, beq_iff_eq.mp hname⟩

theorem Draft.any_name_of_findIdx?_eq_none (hd : d.upvalues.toList.findIdx? (·.name == x) = none) :
    d.upvalues.any (·.name == x) = false := by
  rw [Array.any_eq_false']
  intro c hc
  simpa using List.findIdx?_eq_none_iff.mp hd c (Array.mem_toList_iff.mpr hc)

theorem resolve_finds (x : String) : ∀ d : Draft, (d.resolve x enclosing).Finds x d enclosing := by
  induction enclosing with
  | nil =>
    intro d
    unfold Draft.resolve
    split
    · next i hi => exact .own hi
    · next hd =>
      exact .same (.refl _) (fun u hu => by cases hu) fun _ =>
        Draft.any_name_of_findIdx?_eq_none hd
  | cons parent rest ih =>
    intro d
    have hparent := ih parent
    obtain ⟨upvalues, hdraft⟩ := hparent.draft
    have hvisible : (parent.resolve x rest).draft.visible = parent.visible := by rw [hdraft]
    unfold Draft.resolve
    split
    · next i hi => exact .own hi
    · next hd =>
      dsimp only
      split
      · next i hi =>
        have hknown : d.knows x (parent :: rest) = true := by
          rw [Draft.knows_cons, hi]
          simp
        split
        · refine addCapture_finds rfl hknown ?_ ⟨fun y => ?_, .refl rest⟩
          · rfl
          · exact Draft.knows_congr (by rfl) y rest
        · exact .same (.refl _) (fun u hu => by cases hu) fun h => by cases h
      · next hi =>
        split
        · next i hindex =>
          refine addCapture_finds rfl ?_ hvisible hparent.stack
          rw [Draft.knows_cons, (hparent.found i hindex).1]
          simp
        · next hindex =>
          refine .same (.cons rfl hvisible hparent.stack) (fun u hu => by cases hu) fun _ => ?_
          rw [Draft.knows_cons, Draft.any_name_of_findIdx?_eq_none hd, hi, hparent.missing hindex]
          rfl
        · exact .same (.cons rfl hvisible hparent.stack) (fun u hu => by cases hu)
            fun h => by cases h

/-! ## Histories -/

theorem sameKnown_lasting : Lasting fun w w' => SameKnown w.stack w'.stack where
  refl := fun w => .refl w.stack
  trans := .trans
  draft := fun w d _ _ hupvalues => ⟨fun x => Draft.knows_congr hupvalues x w.enclosing, .refl _⟩
  event := fun w _ => .refl w.stack
  resolve := fun w x => (resolve_finds x w.draft).stack
  leave := fun {w w'} h => by
    have htail : SameKnown (w.draft :: w.enclosing) w'.enclosing := h.2
    unfold Workspace.leave
    split
    · next hnil =>
      rw [hnil] at htail
      exact htail.elim
    · next hcons =>
      rw [hcons] at htail
      exact htail

/-- The same names are known after any operation. -/
theorem Operation.knows {α : Type} {m : LowerM α} {x : α} {w w' : Workspace} (h : Operation m)
    (hrun : m w = .ok x w') (y : String) : w'.knows y = w.knows y :=
  Draft.SameKnown.knows ((h.lasts sameKnown_lasting w).of_ok hrun) y

end LuaLowering
