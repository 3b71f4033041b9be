import Mathlib.Data.List.Forall2
import LuaLowering.Capture
import LuaLowering.Proofs.Tracking

/-!
# Capturing keeps every function in step with those around it

Resolving an outer variable reaches into functions that are waiting to be
finished, so two things have to be said about it. One is how little it changes
there: `Draft.Touched` allows a captured flag to be set and an upvalue to be
added, and nothing else. The other is that the upvalues of a function always
describe what its name stands for in the function around it. A descriptor is
found again by name alone, however long ago it was made; `CapturesOk` is why
that is enough.
-/

namespace LuaLowering

variable {x : String} {i u : Nat} {d d' parent : Draft} {c : Capture} {enclosing : List Draft}

/-- Every entry of one array stands at the same place in another. -/
def Keeps {α : Type} (xs ys : Array α) : Prop :=
  ∀ (i : Nat) (x : α), xs[i]? = some x → ys[i]? = some x

namespace Keeps

variable {α : Type} {xs ys zs : Array α}

theorem refl (xs : Array α) : Keeps xs xs := fun _ _ h => h

theorem trans (h₁ : Keeps xs ys) (h₂ : Keeps ys zs) : Keeps xs zs :=
  fun i x h => h₂ i x (h₁ i x h)

theorem push (xs : Array α) (x : α) : Keeps xs (xs.push x) := by
  intro i y h
  have hlt := (Array.getElem?_eq_some_iff.mp h).1
  rw [Array.getElem?_push_lt hlt, ← h, Array.getElem?_eq_getElem hlt]

theorem size_le (h : Keeps xs ys) : xs.size ≤ ys.size := by
  refine Nat.le_of_not_lt fun hlt => ?_
  have hsome := h ys.size _ (Array.getElem?_eq_getElem hlt)
  exact absurd (Array.getElem?_eq_some_iff.mp hsome).1 (Nat.lt_irrefl _)

theorem mem (h : Keeps xs ys) {x : α} (hx : x ∈ xs) : x ∈ ys := by
  obtain ⟨i, hi⟩ := Array.getElem?_of_mem hx
  exact Array.mem_of_getElem? (h i x hi)

end Keeps

/-- Captured flags were set, of locals in a list, and nothing else changed. -/
structure Flagged (opened : List Nat) (vars vars' : Array Local) : Prop where
  size : vars'.size = vars.size
  entry : ∀ (i : Nat) (v : Local), vars[i]? = some v → ∃ b,
    vars'[i]? = some { v with captured := b } ∧
    (v.captured = true → b = true) ∧ (i ∉ opened → b = v.captured)

namespace Flagged

variable {opened : List Nat} {vars vars' vars'' : Array Local}

theorem refl (opened : List Nat) (vars : Array Local) : Flagged opened vars vars :=
  ⟨rfl, fun _ v h => ⟨v.captured, h, id, fun _ => rfl⟩⟩

theorem trans (h₁ : Flagged opened vars vars') (h₂ : Flagged opened vars' vars'') :
    Flagged opened vars vars'' := by
  refine ⟨h₂.size.trans h₁.size, fun i v hv => ?_⟩
  obtain ⟨b, hb, hmono, hkeep⟩ := h₁.entry i v hv
  obtain ⟨b', hb', hmono', hkeep'⟩ := h₂.entry i _ hb
  exact ⟨b', hb', fun h => hmono' (hmono h), fun hi => (hkeep' hi).trans (hkeep hi)⟩

theorem declared (h : Flagged opened vars vars') :
    vars'[i]?.map Local.declared = vars[i]?.map Local.declared := by
  cases hv : vars[i]? with
  | some v =>
    obtain ⟨b, hb, -, -⟩ := h.entry i v hv
    rw [hb]
    rfl
  | none =>
    have hle := Array.getElem?_eq_none_iff.mp hv
    rw [Array.getElem?_eq_none (by rw [h.size]; exact hle)]

end Flagged

namespace Draft

/-- Locals were captured and upvalues added, and nothing else changed. -/
structure Touched (d d' : Draft) : Prop where
  rest : d' = { d with locals := d'.locals, upvalues := d'.upvalues }
  locals : Flagged d.opened d.locals d'.locals
  upvalues : Keeps d.upvalues d'.upvalues
  count : d'.upvalues.size ≤ max d.upvalues.size maxUpvalues

namespace Touched

variable {d d' d'' : Draft}

theorem refl (d : Draft) : d.Touched d :=
  ⟨rfl, .refl _ _, .refl _, Nat.le_max_left _ _⟩

theorem scopes (h : d.Touched d') : d'.scopes = d.scopes := by rw [h.rest]

theorem visible (h : d.Touched d') : d'.visible = d.visible := by rw [h.rest]

theorem opened (h : d.Touched d') : d'.opened = d.opened := by
  rw [Draft.opened, h.scopes, Draft.opened]

theorem trans (h₁ : d.Touched d') (h₂ : d'.Touched d'') : d.Touched d'' := by
  refine ⟨?_, ?_, h₁.upvalues.trans h₂.upvalues, ?_⟩
  · rw [h₂.rest, h₁.rest]
  · exact h₁.locals.trans (h₁.opened ▸ h₂.locals)
  · have hle₁ := h₁.count
    have hle₂ := h₂.count
    omega

end Touched

/-- Capturing a local that is open only sets its flag. -/
theorem touched_capture (hi : i ∈ d.opened) : d.Touched (d.capture i) := by
  refine ⟨rfl, ⟨by simp [capture], fun j v hv => ?_⟩, .refl _, Nat.le_max_left _ _⟩
  by_cases hij : i = j
  · subst hij
    exact ⟨true, by simp [capture, Array.getElem?_modify, hv], fun _ => rfl,
      fun hni => absurd hi hni⟩
  · exact ⟨v.captured, by simp [capture, Array.getElem?_modify, hij, hv], id, fun _ => rfl⟩

end Draft

/-- An upvalue is described by what its name stands for in the enclosing
function: the register of a local, or else an upvalue of the same name. -/
def Capture.From (c : Capture) (parent : Draft) : Prop :=
  match parent.visible.find? c.name with
  | some i => c.inStack = true ∧
      ∃ v, parent.locals[i]? = some v ∧ v.slot = c.index ∧ v.captured = true
  | none => c.inStack = false ∧
      ∃ c', parent.upvalues[c.index]? = some c' ∧ c'.name = c.name

/-- Setting flags and adding upvalues keeps what an upvalue is described by. -/
theorem Capture.From.kept {opened : List Nat} (h : c.From d) (hvisible : d'.visible = d.visible)
    (hlocals : Flagged opened d.locals d'.locals) (hupvalues : Keeps d.upvalues d'.upvalues) :
    c.From d' := by
  unfold Capture.From at h ⊢
  rw [hvisible]
  split <;> rename_i hx <;> rw [hx] at h
  · obtain ⟨hin, v, hv, hslot, hcap⟩ := h
    obtain ⟨b, hb, hmono, -⟩ := hlocals.entry _ v hv
    exact ⟨hin, _, hb, hslot, hmono hcap⟩
  · obtain ⟨hin, c', hc', hname⟩ := h
    exact ⟨hin, c', hupvalues _ _ hc', hname⟩

theorem Capture.From.touched (h : c.From d) (ht : d.Touched d') :
    c.From d' := h.kept ht.visible ht.locals ht.upvalues

/-- A local that is visible, once it is captured. -/
theorem Capture.from_capture {v : Local} (hvisible : parent.visible.find? x = some i)
    (hv : parent.locals[i]? = some v) : Capture.From ⟨x, true, v.slot⟩ (parent.capture i) := by
  have hsame : (parent.capture i).visible.find? x = some i := hvisible
  have hcaptured : (parent.capture i).locals[i]? = some { v with captured := true } := by
    simp [Draft.capture, Array.getElem?_modify, hv]
  unfold Capture.From
  rw [hsame]
  exact ⟨rfl, _, hcaptured, rfl, rfl⟩

/-- A name that is an upvalue of the enclosing function too. -/
theorem Capture.from_upvalue (hvisible : parent.visible.find? x = none)
    (hc : parent.upvalues[u]? = some c) (hname : c.name = x) :
    Capture.From ⟨x, false, u⟩ parent := by
  unfold Capture.From
  rw [hvisible]
  exact ⟨rfl, c, hc, hname⟩

/-- The upvalues of a function and of all those around it are described by what
their names stand for, one function further out. -/
def CapturesOk : Draft → List Draft → Prop
  | _, [] => True
  | d, parent :: rest => (∀ c ∈ d.upvalues, c.From parent) ∧ CapturesOk parent rest

/-- The function around all others. -/
def outermost : Draft → List Draft → Draft
  | d, [] => d
  | _, parent :: rest => outermost parent rest

theorem CapturesOk.congr (h : CapturesOk d enclosing) (hup : d'.upvalues = d.upvalues) :
    CapturesOk d' enclosing := by
  cases enclosing with
  | nil => trivial
  | cons parent rest => exact ⟨hup ▸ h.1, h.2⟩

theorem outermost_congr (hup : d'.upvalues = d.upvalues) :
    (outermost d' enclosing).upvalues = (outermost d enclosing).upvalues := by
  cases enclosing with
  | nil => exact hup
  | cons parent rest => rfl

/-- What the search for an outer variable may do and what it has to find. -/
structure Resolution.Sound (x : String) (d : Draft) (enclosing : List Draft)
    (r : Resolution) : Prop where
  draft : d.Touched r.draft
  around : List.Forall₂ Draft.Touched enclosing r.enclosing
  captures : CapturesOk r.draft r.enclosing
  base : (outermost r.draft r.enclosing).upvalues = (outermost d enclosing).upvalues
  found : ∀ u, r.index = .ok (some u) → ∃ c, r.draft.upvalues[u]? = some c ∧ c.name = x
  missing : r.index = .ok none → (∀ e ∈ enclosing, e.visible.find? x = none) ∧
    ∀ c ∈ (outermost d enclosing).upvalues, c.name ≠ x
  contract : ∀ how, r.index ≠ .error (.misused how)

theorem forall₂_touched_refl (ds : List Draft) : List.Forall₂ Draft.Touched ds ds :=
  List.forall₂_same.mpr fun d _ => .refl d

/-- Adding an upvalue is sound when the enclosing functions were only touched
and the descriptor fits the nearest of them. -/
theorem addCapture_sound {parent' : Draft} {rest rest' : List Draft}
    (hcap : ∀ u ∈ d.upvalues, u.From parent') (hrest : CapturesOk parent' rest')
    (hp : parent.Touched parent') (hr : List.Forall₂ Draft.Touched rest rest')
    (hbase : (outermost parent' rest').upvalues = (outermost parent rest).upvalues)
    (hc : c.From parent') :
    (d.addCapture c (parent' :: rest')).Sound c.name d (parent :: rest) := by
  unfold Draft.addCapture
  split <;> rename_i hlt
  · refine ⟨⟨rfl, .refl _ _, .push _ _, ?_⟩, .cons hp hr, ⟨?_, hrest⟩, hbase, ?_, ?_, ?_⟩
    · show (d.upvalues.push c).size ≤ _
      rw [Array.size_push]
      omega
    · intro u hu
      rcases Array.mem_push.mp hu with h | rfl
      · exact hcap u h
      · exact hc
    · intro u hu
      cases hu
      exact ⟨c, Array.getElem?_push_size, rfl⟩
    · intro h
      cases h
    · intro how h
      cases h
  · refine ⟨.refl _, .cons hp hr, ⟨hcap, hrest⟩, hbase, ?_, ?_, ?_⟩
    · intro u h
      cases h
    · intro h
      cases h
    · intro how h
      cases h

theorem upvalue_of_findIdx? (h : d.upvalues.toList.findIdx? (·.name == x) = some u) :
    ∃ c, d.upvalues[u]? = some c ∧ c.name = x := by
  obtain ⟨hlt, hname, -⟩ := List.findIdx?_eq_some_iff_getElem.mp h
  refine ⟨d.upvalues.toList[u], ?_, eq_of_beq hname⟩
  rw [← Array.getElem?_toList, List.getElem?_eq_getElem hlt]

/-- The search is sound when every enclosing function tracks its open locals. -/
theorem resolve_sound (x : String) :
    ∀ {d : Draft}, CapturesOk d enclosing → (∀ e ∈ enclosing, e.Tracks e.opened) →
      (d.resolve x enclosing).Sound x d enclosing := by
  induction enclosing with
  | nil =>
    intro d hcap _
    unfold Draft.resolve
    split <;> rename_i hidx
    · refine ⟨.refl _, .nil, hcap, rfl, ?_, (fun h => by cases h), (fun _ h => by cases h)⟩
      intro u hu
      cases hu
      exact upvalue_of_findIdx? hidx
    · refine ⟨.refl _, .nil, hcap, rfl, (fun _ h => by cases h), fun _ => ⟨by simp, ?_⟩,
        (fun _ h => by cases h)⟩
      intro c hc hname
      have hne := List.findIdx?_eq_none_iff.mp hidx c (Array.mem_toList_iff.mpr hc)
      simp [hname] at hne
  | cons parent rest ih =>
    intro d hcap htracks
    have hparent := htracks parent List.mem_cons_self
    have hrest : ∀ e ∈ rest, e.Tracks e.opened := fun e he =>
      htracks e (List.mem_cons_of_mem _ he)
    unfold Draft.resolve
    split <;> rename_i hidx
    · -- an upvalue of that name is there already
      refine ⟨.refl _, forall₂_touched_refl _, hcap, rfl, ?_, (fun h => by cases h),
        (fun _ h => by cases h)⟩
      intro u hu
      cases hu
      exact upvalue_of_findIdx? hidx
    · dsimp only
      split <;> rename_i hvis
      · -- a visible local of the enclosing function
        rename_i i
        have hlatest : parent.latest? x parent.opened = some i := by
          rw [← hparent.visible x, hvis]
        obtain ⟨v, hv, -, -⟩ := hparent.stacked.latest?_local hlatest
        have htouch := Draft.touched_capture (Draft.mem_of_latest? hlatest)
        rw [hv]
        exact addCapture_sound (c := ⟨x, true, v.slot⟩) (fun u hu => (hcap.1 u hu).touched htouch)
          (hcap.2.congr rfl) htouch (forall₂_touched_refl _) (outermost_congr rfl)
          (Capture.from_capture hvis hv)
      · -- further out
        have hs := ih hcap.2 hrest
        have hup : ∀ u ∈ d.upvalues, u.From (parent.resolve x rest).draft := fun u hu =>
          (hcap.1 u hu).touched hs.draft
        split <;> rename_i hres
        · rename_i u
          obtain ⟨c, hc, hname⟩ := hs.found u hres
          exact addCapture_sound (c := ⟨x, false, u⟩) hup hs.captures hs.draft hs.around
            hs.base (Capture.from_upvalue (hs.draft.visible ▸ hvis) hc hname)
        · refine ⟨.refl _, .cons hs.draft hs.around, ⟨hup, hs.captures⟩, hs.base,
            (fun _ h => by cases h), fun _ => ?_, (fun _ h => by cases h)⟩
          obtain ⟨hall, hbase⟩ := hs.missing hres
          refine ⟨fun e he => ?_, hbase⟩
          rcases List.mem_cons.mp he with rfl | hmem
          · exact hvis
          · exact hall e hmem
        · rename_i e
          refine ⟨.refl _, .cons hs.draft hs.around, ⟨hup, hs.captures⟩, hs.base,
            (fun _ h => by cases h), (fun h => by cases h), ?_⟩
          intro how h
          have he : e = .misused how := by simpa using h
          exact hs.contract how (hres.trans (by rw [he]))

end LuaLowering
