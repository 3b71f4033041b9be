import LuaLowering.Compile

/-!
# What a lowering step promises

A step of a compilation ends in one of three ways: it finishes, it rejects the
chunk, or it is stopped for misusing the builder. `Ensures` is the contract that
everything below is stated in. It says what holds when the step finishes, asks
nothing of a rejection, and rules misuse out.

Misuse has one source that no invariant of the builder can exclude: a list of
the chunk that is longer than a count of values can be. The contract therefore
carries a proposition `safe`, the case in which the lists are short enough, and
excludes misuse only then. Taken as `True` it makes a contract a proof that the
builder is never misused; taken as `False` it leaves a statement about every
step that finishes, whatever the lists.
-/

namespace LuaLowering

open LowerM

variable {safe : Prop} {α β : Type} {m : LowerM α} {w w' : Workspace} {x : α}
  {Q : β → Workspace → Prop} {how : Misuse} {P : α → Workspace → Prop} {f : α → LowerM β}
  {e : Event} {why : Rejection} {g : Nat → LowerM β}

/-- The contract of a step from a workspace. -/
def Ensures (safe : Prop) (m : LowerM α) (w : Workspace) (Q : α → Workspace → Prop) : Prop :=
  match m w with
  | .ok x w' => Q x w'
  | .error (.rejected _) _ => True
  | .error (.misused _) _ => ¬ safe

theorem Ensures.of_ok {Q : α → Workspace → Prop} (h : Ensures safe m w Q) (hrun : m w = .ok x w') :
    Q x w' := by
  rw [Ensures, hrun] at h
  exact h

/-- A step that finishes has the outcome that it has. -/
theorem ensures_run (m : LowerM α) (w : Workspace) :
    Ensures False m w fun x w' => m w = .ok x w' := by
  unfold Ensures
  split <;> simp_all

theorem Ensures.not_misused {Q : α → Workspace → Prop} (h : Ensures safe m w Q)
    (hrun : m w = .error (.misused how) w') : ¬ safe := by
  rw [Ensures, hrun] at h
  exact h

theorem Ensures.mono {Q : α → Workspace → Prop} (h : Ensures safe m w P)
    (hPQ : ∀ x w', P x w' → Q x w') : Ensures safe m w Q := by
  unfold Ensures at h ⊢
  split <;> rename_i hrun <;> rw [hrun] at h
  · exact hPQ _ _ h
  · trivial
  · exact h

theorem Ensures.run {Q : α → Workspace → Prop} (h : Ensures safe m w Q) :
    Ensures safe m w fun x w' => Q x w' ∧ m w = .ok x w' := by
  unfold Ensures at h ⊢
  split <;> rename_i hrun <;> rw [hrun] at h
  · exact ⟨h, hrun⟩
  · trivial
  · exact h

/-- A step about which nothing is asked. -/
theorem ensures_true (m : LowerM α) (w : Workspace) : Ensures False m w fun _ _ => True := by
  unfold Ensures
  split
  · trivial
  · trivial
  · exact not_false

theorem Ensures.and {Q : α → Workspace → Prop} (h₁ : Ensures safe m w P) (h₂ : Ensures safe m w Q) :
    Ensures safe m w fun x w' => P x w' ∧ Q x w' := by
  unfold Ensures at h₁ h₂ ⊢
  split <;> rename_i hrun <;> rw [hrun] at h₁ h₂
  · exact ⟨h₁, h₂⟩
  · trivial
  · exact h₁

theorem bind_of_ok (h : m w = .ok x w') : (m >>= f) w = f x w' := by
  have hbind : (m >>= f) w = EStateM.bind m f w := rfl
  rw [hbind, EStateM.bind, h]

theorem bind_of_error {e : Stop} (h : m w = .error e w') : (m >>= f) w = .error e w' := by
  have hbind : (m >>= f) w = EStateM.bind m f w := rfl
  rw [hbind, EStateM.bind, h]

/-- The state that a step leaves behind, whether it finishes or not. -/
def stateAfter (m : LowerM α) (w : Workspace) : Workspace :=
  match m w with
  | .ok _ w' => w'
  | .error _ w' => w'

theorem stateAfter_of_ok (h : m w = .ok x w') : stateAfter m w = w' := by
  rw [stateAfter, h]

/-- Steps in sequence: the second may rely on what the first promised. -/
theorem Ensures.bind (h : Ensures safe m w P) (hf : ∀ x w₁, P x w₁ → Ensures safe (f x) w₁ Q) :
    Ensures safe (m >>= f) w Q := by
  have hbind : (m >>= f) w = EStateM.bind m f w := rfl
  unfold Ensures at h ⊢
  rw [hbind, EStateM.bind]
  cases hrun : m w with
  | ok x w₁ =>
    rw [hrun] at h
    exact hf x w₁ h
  | error e w₁ =>
    rw [hrun] at h
    cases e <;> exact h

/-- The number of registers in use. -/
abbrev Workspace.used (w : Workspace) : Nat := w.draft.registers.used

/-! ## Steps that only look or only note

These never fail, so their contracts are equations. As rewrite rules they take
such a step off the front of a sequence. -/

@[simp] theorem ensures_pure {Q : α → Workspace → Prop} :
    Ensures safe (pure x) w Q ↔ Q x w := Iff.rfl

@[simp] theorem ensures_pure_bind :
    Ensures safe (pure x >>= f) w Q ↔ Ensures safe (f x) w Q := Iff.rfl

@[simp] theorem ensures_reject {Q : α → Workspace → Prop} :
    Ensures safe (reject why) w Q := trivial

@[simp] theorem ensures_misuse {Q : α → Workspace → Prop} :
    Ensures safe (misuse how) w Q ↔ ¬ safe := Iff.rfl

theorem view_bind_run (f : Draft → α) (g : α → LowerM β) (w : Workspace) :
    (view f >>= g) w = g (f w.draft) w := rfl

@[simp] theorem ensures_view_bind {f : Draft → α} {g : α → LowerM β} :
    Ensures safe (view f >>= g) w Q ↔ Ensures safe (g (f w.draft)) w Q := Iff.rfl

@[simp] theorem ensures_update {f : Draft → Draft} {Q : Unit → Workspace → Prop} :
    Ensures safe (update f) w Q ↔ Q () { w with draft := f w.draft } := Iff.rfl

@[simp] theorem ensures_update_bind {f : Draft → Draft} {g : Unit → LowerM β} :
    Ensures safe (update f >>= g) w Q ↔
      Ensures safe (g ()) { w with draft := f w.draft } Q := Iff.rfl

@[simp] theorem ensures_options_bind {g : Options → LowerM β} :
    Ensures safe (options >>= g) w Q ↔ Ensures safe (g w.options) w Q := Iff.rfl

@[simp] theorem ensures_record {Q : Unit → Workspace → Prop} :
    Ensures safe (record e) w Q ↔ Q () { w with events := w.events.push e } := Iff.rfl

@[simp] theorem ensures_record_bind {g : Unit → LowerM β} :
    Ensures safe (record e >>= g) w Q ↔
      Ensures safe (g ()) { w with events := w.events.push e } Q := Iff.rfl

@[simp] theorem ensures_currentLine_bind :
    Ensures safe (currentLine >>= g) w Q ↔ Ensures safe (g w.draft.line) w Q := Iff.rfl

@[simp] theorem ensures_here_bind :
    Ensures safe (here >>= g) w Q ↔ Ensures safe (g w.draft.pc) w Q := Iff.rfl

@[simp] theorem ensures_usedRegisters_bind :
    Ensures safe (usedRegisters >>= g) w Q ↔
      Ensures safe (g w.used) w Q := Iff.rfl

@[simp] theorem ensures_declaredCount_bind :
    Ensures safe (declaredCount >>= g) w Q ↔
      Ensures safe (g w.draft.locals.size) w Q := Iff.rfl

end LuaLowering
