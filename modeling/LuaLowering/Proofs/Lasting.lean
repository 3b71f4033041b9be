import LuaLowering.Proofs.History

/-!
# What lasts through any history

A relation between the states of a workspace holds between the two ends of every history
if it is transitive and the few things that can happen keep it: the innermost function
changes in other ways than its upvalues, something is recorded, an outer variable is
looked up, and a function inside is left again. `Lasting` says so. Everything else is the
same for all such relations and is shown here once.

It makes no difference whether an operation finishes or rejects the chunk. A misuse of
the builder is not part of a history.
-/

namespace LuaLowering

open LowerM

/-- A relation that whatever may happen to a workspace keeps. -/
structure Lasting (R : Workspace → Workspace → Prop) : Prop where
  refl : ∀ w, R w w
  trans : ∀ {w w' w''}, R w w' → R w' w'' → R w w''
  -- constants and instructions are only ever added
  draft : ∀ (w : Workspace) (d : Draft), Keeps w.draft.constants d.constants →
    w.draft.pc ≤ d.pc → d.upvalues = w.draft.upvalues → R w { w with draft := d }
  event : ∀ (w : Workspace) (e : Event), R w { w with events := w.events.push e }
  resolve : ∀ (w : Workspace) (x : String), R w { w with
    draft := (w.draft.resolve x w.enclosing).draft
    enclosing := (w.draft.resolve x w.enclosing).enclosing }
  leave : ∀ {w w' : Workspace}, R w.enter w' → R w w'.leave

/-- The relation holds between a workspace and what a step makes of it. -/
def LastsFrom (R : Workspace → Workspace → Prop) {α : Type} (m : LowerM α) (w : Workspace) : Prop :=
  match m w with
  | .ok _ w' => R w w'
  | .error (.rejected _) w' => R w w'
  | .error (.misused _) _ => True

/-- A step that keeps the relation from every workspace. -/
def Lasts (R : Workspace → Workspace → Prop) (α : Type) (m : LowerM α) : Prop :=
  ∀ w, LastsFrom R m w

variable {R : Workspace → Workspace → Prop} {α β : Type} {m : LowerM α} {f : α → LowerM β}
  {w w' : Workspace}

theorem LastsFrom.of_ok {x : α} (h : LastsFrom R m w) (hrun : m w = .ok x w') : R w w' := by
  rw [LastsFrom, hrun] at h
  exact h

theorem LastsFrom.of_rejected {why : Rejection} (h : LastsFrom R m w)
    (hrun : m w = .error (.rejected why) w') : R w w' := by
  rw [LastsFrom, hrun] at h
  exact h

section

variable (hR : Lasting R)

include hR

namespace Lasting

theorem bind (h : Lasts R α m) (hf : ∀ x, Lasts R β (f x)) : Lasts R β (m >>= f) := by
  intro w
  have hbind : (m >>= f) w = EStateM.bind m f w := rfl
  have hm := h w
  unfold LastsFrom at hm ⊢
  rw [hbind, EStateM.bind]
  cases hrun : m w with
  | ok x w₁ =>
    rw [hrun] at hm
    have hnext := hf x w₁
    unfold LastsFrom at hnext
    dsimp only
    split <;> rename_i hrun' <;> rw [hrun'] at hnext
    · exact hR.trans hm hnext
    · exact hR.trans hm hnext
    · trivial
  | error e w₁ =>
    rw [hrun] at hm
    cases e <;> exact hm

theorem pure (x : α) : Lasts R α (pure x) := fun w => hR.refl w

theorem view (g : Draft → α) : Lasts R α (view g) := fun w => hR.refl w

theorem reject (why : Rejection) : Lasts R α (reject why) := fun w => hR.refl w

omit hR in
theorem misuse (how : Misuse) : Lasts R α (misuse how) := fun _ => trivial

theorem record (e : Event) : Lasts R Unit (record e) := fun w => hR.event w e

/-- Most changes to a function concern neither its constants nor its upvalues. -/
theorem update {g : Draft → Draft} (hconstants : ∀ d : Draft, (g d).constants = d.constants)
    (hupvalues : ∀ d : Draft, (g d).upvalues = d.upvalues) (hpc : ∀ d : Draft, d.pc ≤ (g d).pc) :
    Lasts R Unit (update g) :=
  fun w => hR.draft w _ (hconstants w.draft ▸ .refl _) (hpc w.draft) (hupvalues w.draft)

/-- Nor do they concern its code. -/
theorem set {g : Draft → Draft} (hconstants : ∀ d : Draft, (g d).constants = d.constants)
    (hupvalues : ∀ d : Draft, (g d).upvalues = d.upvalues)
    (hcode : ∀ d : Draft, (g d).code = d.code) : Lasts R Unit (LowerM.update g) :=
  hR.update hconstants hupvalues fun d => Nat.le_of_eq (congrArg Array.size (hcode d).symm)

end Lasting

/-! ## Steps -/

theorem keepTaken_lasts (taken : Option (Nat × Registers)) : Lasts R Nat (keepTaken taken) := by
  cases taken with
  | some taken =>
    exact hR.bind (hR.set (fun _ => rfl) (fun _ => rfl) fun _ => rfl) fun _ => hR.pure taken.1
  | none =>
    exact hR.bind (hR.view _) fun _ => hR.bind (hR.view _) fun _ =>
      hR.reject _

theorem takeRegister_lasts : Lasts R Nat takeRegister :=
  hR.bind (hR.view _) fun r => keepTaken_lasts hR r.take?

theorem takeRegisters_lasts (n : Nat) : Lasts R Nat (takeRegisters n) := by
  refine hR.bind (hR.view _) fun r => ?_
  split
  · exact keepTaken_lasts hR _
  · exact Lasting.misuse _

theorem giveBack_lasts (f : Registers → Except Misuse Registers) : Lasts R Unit (giveBack f) := by
  refine hR.bind (hR.view _) fun r => ?_
  split
  · exact hR.set (fun _ => rfl) (fun _ => rfl) fun _ => rfl
  · exact Lasting.misuse _

theorem emit_lasts (line : Nat) (i : Instruction) : Lasts R Nat (emit line i) := by
  refine hR.bind (hR.view _) fun pc => hR.bind ?_ fun _ => hR.pure pc
  refine hR.update (fun _ => rfl) (fun _ => rfl) fun d => ?_
  have hsize : (d.emit line i).code.size = d.code.size + 1 := Array.size_push _
  exact Nat.le_of_lt (Nat.lt_of_lt_of_eq (Nat.lt_succ_self _) hsize.symm)

theorem setInstruction_lasts (pc : Nat) (i : Instruction) :
    Lasts R Unit (setInstruction pc i) := by
  refine hR.bind (hR.view _) fun size => ?_
  split
  · refine hR.update (fun _ => rfl) (fun _ => rfl) fun d => ?_
    exact Nat.le_of_eq Array.size_setIfInBounds.symm
  · exact Lasting.misuse _

theorem offsetBetween_lasts (origin target : Nat) : Lasts R Int (offsetBetween origin target) := by
  refine hR.bind (hR.view _) fun offset => ?_
  split
  · exact hR.pure offset
  · refine hR.bind (hR.view _) fun pc => ?_
    split
    · exact hR.bind (hR.view _) fun _ => hR.reject _
    · exact Lasting.misuse _

theorem aimJump_lasts (pc target : Nat) : Lasts R Unit (aimJump pc target) := by
  refine hR.bind (offsetBetween_lasts hR pc target) fun offset =>
    hR.bind (hR.view _) fun i => ?_
  cases i with
  | some i => exact hR.bind (setInstruction_lasts hR pc _) fun _ => hR.record _
  | none => exact Lasting.misuse _

/-- A new constant goes behind the others. -/
theorem constantIndex_lasts (k : Constant) : Lasts R Nat (constantIndex k) := by
  refine hR.bind (hR.view _) fun found => ?_
  cases found with
  | some i => exact hR.pure i
  | none =>
    refine hR.bind (hR.view _) fun i => hR.bind (fun w => ?_) fun _ =>
      hR.pure i
    exact hR.draft w _ (.push _ _) (Nat.le_refl _) rfl

/-! ### Locals and scopes -/

theorem declareLocal_lasts (x : String) (startPc : Nat) :
    Lasts R Nat (declareLocal x startPc) :=
  hR.bind (takeRegister_lasts hR) fun slot =>
    hR.bind (hR.set (fun _ => rfl) (fun _ => rfl) fun _ => rfl) fun _ => hR.pure slot

theorem localAt_lasts (i : Nat) : Lasts R Local (localAt i) := by
  refine hR.bind (hR.view _) fun v => ?_
  cases v with
  | some v => exact hR.pure v
  | none => exact Lasting.misuse _

theorem slotOf?_lasts (x : String) : Lasts R (Option Nat) (slotOf? x) := by
  refine hR.bind (hR.view _) fun i => ?_
  cases i with
  | some i => exact hR.bind (localAt_lasts hR i) fun _ => hR.pure _
  | none => exact hR.pure none

theorem prolongLocals_lasts (first past delta : Nat) :
    Lasts R Unit (prolongLocals first past delta) := by
  refine hR.bind (hR.view _) fun count => ?_
  split
  · exact hR.set (fun _ => rfl) (fun _ => rfl) fun _ => rfl
  · exact Lasting.misuse _

theorem openScope_lasts (breakable : Bool) : Lasts R Unit (openScope breakable) :=
  hR.bind (hR.set (fun _ => rfl) (fun _ => rfl) fun _ => rfl) fun _ => hR.bind (hR.view _) fun _ =>
    hR.record _

theorem addBreak_lasts (pc line : Nat) : Lasts R Unit (addBreak pc line) := by
  refine hR.bind (hR.view _) fun scopes => ?_
  split
  · exact hR.set (fun _ => rfl) (fun _ => rfl) fun _ => rfl
  · exact hR.reject _

theorem localsAt_lasts (is : List Nat) : Lasts R (List Local) (localsAt is) := by
  induction is with
  | nil => exact hR.pure []
  | cons i rest ih =>
    exact hR.bind (localAt_lasts hR i) fun v => hR.bind ih fun vars =>
      hR.pure (v :: vars)

theorem closeLevel_lasts : Lasts R Nat closeLevel := by
  refine hR.bind (hR.view _) fun scopes => ?_
  cases scopes with
  | nil => exact hR.pure 0
  | cons s rest => exact hR.bind (localsAt_lasts hR s.locals) fun _ => hR.pure _

theorem patchBreaks_lasts (close target : Nat) (breaks : List OpenBreak) :
    Lasts R Unit (patchBreaks close target breaks) := by
  induction breaks with
  | nil => exact hR.pure ()
  | cons b rest ih =>
    refine hR.bind ?_ fun _ => ih
    exact hR.bind (offsetBetween_lasts hR b.pc target) fun _ =>
      hR.bind (setInstruction_lasts hR b.pc _) fun _ => hR.record _

theorem endLocals_lasts (endPc : Nat) (is : List Nat) : Lasts R Unit (endLocals endPc is) := by
  induction is with
  | nil => exact hR.pure ()
  | cons i rest ih =>
    refine hR.bind (hR.bind (localAt_lasts hR i) fun v => ?_) fun _ => ih
    exact hR.bind (hR.set (fun _ => rfl) (fun _ => rfl) fun _ => rfl) fun _ => giveBack_lasts hR _

theorem closeScope_lasts (endPc : Nat) : Lasts R Unit (closeScope endPc) := by
  refine hR.bind (closeLevel_lasts hR) fun close => hR.bind (hR.view _) fun scopes => ?_
  cases scopes with
  | nil => exact hR.pure ()
  | cons scope outer =>
    have hrest : Lasts R Unit (do
        endLocals endPc scope.locals
        record (.scopeClosed (outer.length + 1) endPc)) :=
      hR.bind (endLocals_lasts hR endPc scope.locals) fun _ => hR.record _
    dsimp only
    split
    · exact hR.bind (hR.set (fun _ => rfl) (fun _ => rfl) fun _ => rfl) fun _ =>
        hR.bind (hR.view _) fun target =>
          hR.bind (patchBreaks_lasts hR close target _) fun _ => hrest
    · exact hR.bind (hR.set (fun _ => rfl) (fun _ => rfl) fun _ => rfl) fun _ => hrest

/-! ### Outer variables and nested functions -/

theorem upvalueOf?_lasts (x : String) : Lasts R (Option Nat) (upvalueOf? x) := by
  intro w
  have hresolve := hR.resolve w x
  unfold upvalueOf? LastsFrom
  dsimp only
  cases (w.draft.resolve x w.enclosing).index with
  | ok u => exact hresolve
  | error e =>
    cases e with
    | rejected why => exact hresolve
    | misused how => trivial

theorem nested_lasts {body : LowerM α} (h : Lasts R α body) :
    Lasts R (Draft × α) (nested body) := by
  intro w
  have hbody := h w.enter
  unfold LastsFrom at hbody ⊢
  unfold nested
  cases hrun : body w.enter with
  | ok x w' =>
    rw [hrun] at hbody
    exact hR.leave hbody
  | error e w' =>
    rw [hrun] at hbody
    cases e with
    | rejected why => exact hR.leave hbody
    | misused how => trivial

theorem loadFunction_lasts {write : LowerM Unit} (lastLine a : Nat) (h : Lasts R Unit write) :
    Lasts R Unit (loadFunction lastLine write a) := by
  refine hR.bind (nested_lasts hR h) fun inner => hR.bind (hR.view _) fun i => ?_
  have hfinish : Lasts R Prototype (finishFunction inner.1) :=
    fun w => hR.bind (hR.record _) (fun _ => hR.pure (inner.1.finish w.options)) w
  exact hR.bind hfinish fun p => hR.bind (hR.set (fun _ => rfl) (fun _ => rfl) fun _ => rfl)
    fun _ => hR.bind (emit_lasts hR lastLine _) fun _ => hR.pure ()

/-- All of lowering keeps the relation. -/
theorem Lasting.stepwise : Stepwise (Lasts R) where
  pure := hR.pure
  bind := hR.bind
  reject := hR.reject
  misuse := Lasting.misuse
  options := fun h _ w => h w.options w
  currentLine := hR.view _
  setLine := fun _ => hR.set (fun _ => rfl) (fun _ => rfl) fun _ => rfl
  here := hR.view _
  usedRegisters := hR.view _
  takeRegister := takeRegister_lasts hR
  takeRegisters := takeRegisters_lasts hR
  freeRegisters := fun _ => giveBack_lasts hR _
  freeRegistersTo := fun _ => giveBack_lasts hR _
  emit := emit_lasts hR
  offsetBetween := offsetBetween_lasts hR
  aimJump := aimJump_lasts hR
  constantIndex := constantIndex_lasts hR
  declareLocal := declareLocal_lasts hR
  localAt := localAt_lasts hR
  slotOf? := slotOf?_lasts hR
  declaredCount := hR.view _
  prolongLocals := prolongLocals_lasts hR
  openScope := openScope_lasts hR
  addBreak := addBreak_lasts hR
  closeLevel := closeLevel_lasts hR
  closeScope := closeScope_lasts hR
  upvalueOf? := upvalueOf?_lasts hR
  heading := fun _ _ _ _ => hR.set (fun _ => rfl) (fun _ => rfl) fun _ => rfl
  function := loadFunction_lasts hR

end

/-! ## Histories -/

theorem Operation.lasts (h : Operation m) (hR : Lasting R) : Lasts R α m :=
  h.of_stepwise hR.stepwise hR.view

theorem History.lasts (h : History w w') (hR : Lasting R) : R w w' := by
  induction h with
  | start w => exact hR.refl w
  | finished _ hm hrun ih => exact hR.trans ih ((hm.lasts hR _).of_ok hrun)
  | rejected _ hm hrun ih => exact hR.trans ih ((hm.lasts hR _).of_rejected hrun)
  | nested _ _ ih ih' => exact hR.trans ih (hR.leave ih')

end LuaLowering
