import Mathlib.Logic.Function.Basic
import LuaLowering.Proofs.Breaks
import LuaLowering.Proofs.Capturing
import LuaLowering.Proofs.Contract
import LuaLowering.Proofs.Vetting.Offences

/-!
# What a lowering step decides about the source

`Vets` is a contract for the other half of lowering: the step takes a stretch of
the source with the offences listed. It finishes only if there are none, and if
it rejects the chunk, then for the first of them or for a limit. Misuse of the
builder is no concern here, so nothing is asked of the workspace at the start.

Two relations say how a workspace may differ when a step has finished. After an
expression it is `Alike`: every name stands for the same local and the same
scopes are open. Statements have `Declares` (see below).
-/

namespace LuaLowering

open LowerM

variable {α β : Type} {d d' d'' : Draft} {why : Rejection} {x : α} {Q : β → Workspace → Prop}
  {P : α → Workspace → Prop} {g : Nat → LowerM β}

/-! ## What stays the same -/

namespace Draft

/-- The names, the scopes and the declared locals are the same, and the upvalues
are still there. -/
structure Alike (d d' : Draft) : Prop where
  scopes : d'.scopes = d.scopes
  visible : d'.visible = d.visible
  declared : ∀ i, d'.declarationAt? i = d.declarationAt? i
  upvalues : Keeps d.upvalues d'.upvalues

/-- As `Alike`, with the same registers in use: what becomes of a function while
one inside it is written. -/
structure Waits (d d' : Draft) : Prop extends Alike d d' where
  used : d'.registers.used = d.registers.used

theorem Alike.refl (d : Draft) : d.Alike d := ⟨rfl, rfl, fun _ => rfl, .refl _⟩

theorem Alike.trans (h₁ : d.Alike d') (h₂ : d'.Alike d'') : d.Alike d'' :=
  ⟨h₂.scopes.trans h₁.scopes, h₂.visible.trans h₁.visible,
    fun i => (h₂.declared i).trans (h₁.declared i), h₁.upvalues.trans h₂.upvalues⟩

theorem Waits.refl (d : Draft) : d.Waits d := ⟨.refl d, rfl⟩

theorem Waits.trans (h₁ : d.Waits d') (h₂ : d'.Waits d'') : d.Waits d'' :=
  ⟨h₁.toAlike.trans h₂.toAlike, h₂.used.trans h₁.used⟩

theorem forall₂_waits_refl (ds : List Draft) : List.Forall₂ Waits ds ds :=
  List.forall₂_same.mpr fun d _ => .refl d

theorem forall₂_waits_trans {ds ds' ds'' : List Draft} (h₁ : List.Forall₂ Waits ds ds')
    (h₂ : List.Forall₂ Waits ds' ds'') : List.Forall₂ Waits ds ds'' := by
  induction h₁ generalizing ds'' with
  | nil =>
    cases h₂
    exact .nil
  | cons hd _ ih =>
    cases h₂ with
    | cons hd' hds' => exact .cons (hd.trans hd') (ih hds')

/-- The table of globals is among the upvalues. -/
def HasGlobals (d : Draft) : Prop := ∃ c ∈ d.upvalues, c.name = "_ENV"

theorem HasGlobals.keeps (h : d.HasGlobals) (hk : Keeps d.upvalues d'.upvalues) :
    d'.HasGlobals := by
  obtain ⟨c, hc, hname⟩ := h
  exact ⟨c, hk.mem hc, hname⟩

end Draft

namespace Workspace

/-- The names and the scopes are the same, and the enclosing functions wait. -/
structure Alike (w w' : Workspace) : Prop where
  draft : w.draft.Alike w'.draft
  enclosing : List.Forall₂ Draft.Waits w.enclosing w'.enclosing

theorem Alike.refl (w : Workspace) : w.Alike w := ⟨.refl _, Draft.forall₂_waits_refl _⟩

theorem Alike.trans {w w' w'' : Workspace} (h₁ : w.Alike w') (h₂ : w'.Alike w'') : w.Alike w'' :=
  ⟨h₁.draft.trans h₂.draft, Draft.forall₂_waits_trans h₁.enclosing h₂.enclosing⟩

/-- The function being written or one around it has the table of globals. -/
def SeesGlobals (w : Workspace) : Prop := w.draft.HasGlobals ∨ ∃ e ∈ w.enclosing, e.HasGlobals

theorem SeesGlobals.keeps {w w' : Workspace} (h : w.SeesGlobals)
    (hup : Keeps w.draft.upvalues w'.draft.upvalues)
    (henc : List.Forall₂ Draft.Waits w.enclosing w'.enclosing) : w'.SeesGlobals := by
  rcases h with h | ⟨e, he, hglobals⟩
  · exact Or.inl (h.keeps hup)
  · obtain ⟨i, hi, rfl⟩ := List.mem_iff_getElem.mp he
    have hi' : i < w'.enclosing.length := henc.length_eq ▸ hi
    have hwaits : w.enclosing[i].Waits w'.enclosing[i] := List.Forall₂.get henc hi hi'
    exact Or.inr ⟨w'.enclosing[i], List.getElem_mem hi', hglobals.keeps hwaits.upvalues⟩

theorem Alike.seesGlobals {w w' : Workspace} (h : w.Alike w') (hg : w.SeesGlobals) :
    w'.SeesGlobals := hg.keeps h.draft.upvalues h.enclosing

/-- What a chunk may be rejected for, given the offences to come: for the first of
them, for a limit, or for the lack of globals where there are none. -/
def MayReject (w : Workspace) (os : List Offence) (why : Rejection) : Prop :=
  why.IsLimit ∨ os.head?.map Offence.rejection = some why ∨
    ¬ w.SeesGlobals ∧ ∃ line, why = .noGlobals line

theorem MayReject.append {w : Workspace} {os : List Offence} (h : w.MayReject os why)
    (os' : List Offence) : w.MayReject (os ++ os') why := by
  rcases h with h | h | h
  · exact Or.inl h
  · cases os with
    | nil => cases h
    | cons o rest => exact Or.inr (Or.inl h)
  · exact Or.inr (Or.inr h)

theorem MayReject.before {w w' : Workspace} {os : List Offence} (h : w'.MayReject os why)
    (hg : w.SeesGlobals → w'.SeesGlobals) : w.MayReject os why := by
  rcases h with h | h | ⟨hno, hline⟩
  · exact Or.inl h
  · exact Or.inr (Or.inl h)
  · exact Or.inr (Or.inr ⟨fun hw => hno (hg hw), hline⟩)

end Workspace

/-! ## The contract -/

/-- What a step over a stretch of the source with these offences comes to. -/
def Vets (m : LowerM α) (w : Workspace) (os : List Offence) (Q : α → Workspace → Prop) : Prop :=
  match m w with
  | .ok x w' => os = [] ∧ (w.SeesGlobals → w'.SeesGlobals) ∧ Q x w'
  | .error (.rejected why) _ => w.MayReject os why
  | .error (.misused _) _ => True

variable {m : LowerM α} {f : α → LowerM β} {w w' : Workspace} {os os' : List Offence}

theorem Vets.of_ok {Q : α → Workspace → Prop} (h : Vets m w os Q) (hrun : m w = .ok x w') :
    os = [] ∧ Q x w' := by
  rw [Vets, hrun] at h
  exact ⟨h.1, h.2.2⟩

theorem Vets.of_rejected {Q : α → Workspace → Prop} (h : Vets m w os Q)
    (hrun : m w = .error (.rejected why) w') : w.MayReject os why := by
  rw [Vets, hrun] at h
  exact h

theorem Vets.mono {Q : α → Workspace → Prop} (h : Vets m w os P) (hPQ : ∀ x w', P x w' → Q x w') :
    Vets m w os Q := by
  unfold Vets at h ⊢
  split <;> rename_i hrun <;> rw [hrun] at h
  · exact ⟨h.1, h.2.1, hPQ _ _ h.2.2⟩
  · exact h
  · trivial

/-- Steps in sequence: the offences of the first come before those of the
second. -/
theorem Vets.bind (h : Vets m w os P) (hf : ∀ x w₁, P x w₁ → Vets (f x) w₁ os' Q) :
    Vets (m >>= f) w (os ++ os') Q := by
  have hbind : (m >>= f) w = EStateM.bind m f w := rfl
  unfold Vets at h ⊢
  rw [hbind, EStateM.bind]
  cases hrun : m w with
  | ok x w₁ =>
    rw [hrun] at h
    obtain ⟨rfl, hg, hP⟩ := h
    have hnext := hf x w₁ hP
    unfold Vets at hnext
    dsimp only
    rw [List.nil_append]
    split <;> rename_i hrun' <;> rw [hrun'] at hnext
    · exact ⟨hnext.1, fun hw => hnext.2.1 (hg hw), hnext.2.2⟩
    · exact hnext.before hg
    · trivial
  | error e w₁ =>
    rw [hrun] at h
    cases e with
    | rejected why => exact h.append os'
    | misused how => trivial

/-- A step that takes nothing from the source, and then the others. -/
theorem Vets.andThen (h : Vets m w [] P) (hf : ∀ x w₁, P x w₁ → Vets (f x) w₁ os Q) :
    Vets (m >>= f) w os Q := h.bind hf

/-- The last step that takes something from the source, and then the others. -/
theorem Vets.finally (h : Vets m w os P) (hf : ∀ x w₁, P x w₁ → Vets (f x) w₁ [] Q) :
    Vets (m >>= f) w os Q := by
  have hall := h.bind hf
  rwa [List.append_nil] at hall

/-! ## Steps that only look or only note -/

@[simp] theorem vets_pure {Q : α → Workspace → Prop} : Vets (pure x) w os Q ↔ os = [] ∧ Q x w :=
  ⟨fun h => ⟨h.1, h.2.2⟩, fun h => ⟨h.1, id, h.2⟩⟩

@[simp] theorem vets_pure_bind :
    Vets (pure x >>= f) w os Q ↔ Vets (f x) w os Q := Iff.rfl

@[simp] theorem vets_misuse {how : Misuse} {Q : α → Workspace → Prop} :
    Vets (misuse how) w os Q := trivial

@[simp] theorem vets_reject {Q : α → Workspace → Prop} :
    Vets (reject why) w os Q ↔ w.MayReject os why := Iff.rfl

@[simp] theorem vets_view_bind {g : Draft → α} :
    Vets (view g >>= f) w os Q ↔ Vets (f (g w.draft)) w os Q := Iff.rfl

@[simp] theorem vets_options_bind {g : Options → LowerM β} :
    Vets (options >>= g) w os Q ↔ Vets (g w.options) w os Q := Iff.rfl

@[simp] theorem vets_currentLine_bind :
    Vets (currentLine >>= g) w os Q ↔ Vets (g w.draft.line) w os Q := Iff.rfl

@[simp] theorem vets_here_bind :
    Vets (here >>= g) w os Q ↔ Vets (g w.draft.pc) w os Q := Iff.rfl

@[simp] theorem vets_usedRegisters_bind :
    Vets (usedRegisters >>= g) w os Q ↔ Vets (g w.used) w os Q := Iff.rfl

@[simp] theorem vets_declaredCount_bind :
    Vets (declaredCount >>= g) w os Q ↔ Vets (g w.draft.locals.size) w os Q := Iff.rfl

/-! ## Steps that keep names and registers -/

/-- The step keeps every name; it may take registers or give some back. -/
structure Quiet (m : LowerM α) (os : List Offence) : Prop where
  vets : ∀ w, Vets m w os fun _ w' => w.Alike w'

/-- The step keeps every name and as many registers in use. -/
structure Neutral (m : LowerM α) (os : List Offence) : Prop where
  vets : ∀ w, Vets m w os fun _ w' => w.Alike w' ∧ w'.used = w.used

theorem Neutral.quiet (h : Neutral m os) : Quiet m os :=
  ⟨fun w => (h.vets w).mono fun _ _ h' => h'.1⟩

theorem neutral_pure (x : α) : Neutral (pure x) [] :=
  ⟨fun w => vets_pure.mpr ⟨rfl, .refl w, rfl⟩⟩

theorem neutral_misuse (how : Misuse) : Neutral (misuse how : LowerM α) os := ⟨fun _ => trivial⟩

theorem Neutral.bind (h : Neutral m os) (hf : ∀ x, Neutral (f x) os') :
    Neutral (m >>= f) (os ++ os') := by
  refine ⟨fun w => (h.vets w).bind fun x w₁ h₁ => ((hf x).vets w₁).mono fun _ _ h₂ => ?_⟩
  exact ⟨h₁.1.trans h₂.1, h₂.2.trans h₁.2⟩

theorem Neutral.andThen (h : Neutral m []) (hf : ∀ x, Neutral (f x) os) : Neutral (m >>= f) os :=
  h.bind hf

theorem Neutral.finally (h : Neutral m os) (hf : ∀ x, Neutral (f x) []) : Neutral (m >>= f) os :=
  List.append_nil os ▸ h.bind hf

theorem Quiet.bind (h : Quiet m os) (hf : ∀ x, Quiet (f x) os') : Quiet (m >>= f) (os ++ os') :=
  ⟨fun w => (h.vets w).bind fun x w₁ h₁ => ((hf x).vets w₁).mono fun _ _ h₂ => h₁.trans h₂⟩

theorem Quiet.andThen (h : Quiet m []) (hf : ∀ x, Quiet (f x) os) : Quiet (m >>= f) os := h.bind hf

theorem Quiet.finally (h : Quiet m os) (hf : ∀ x, Quiet (f x) []) : Quiet (m >>= f) os :=
  List.append_nil os ▸ h.bind hf

end LuaLowering
