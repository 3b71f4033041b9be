import Mathlib.Data.List.Nodup
import LuaLowering.Proofs.Breaks
import LuaLowering.Proofs.Capturing
import LuaLowering.Proofs.Contract
import LuaLowering.Proofs.Stepwise

/-!
# What always holds of a function under construction

`Draft.Sound` is the invariant that no step of the builder breaks, whatever the
order in which steps are taken and whether they finish or reject the chunk. Unlike
the invariant that lowering relies on, it knows nothing of scopes that nest or of
registers that locals hold: a caller who drives the builder by hand need not respect
any of that.

`Draft.Evolves` adds what only grows. It is a preorder, and so the property that a
step lets every function evolve is one that sequences inherit.
-/

namespace LuaLowering

open LowerM

variable {α : Type} {x : String} {names : NameMap} {i slot : Nat} {f : Local → Local} {v : Local}
  {d : Draft} {locals : Array Local} {scopes : List Scope} {w w' : Workspace}
  {enclosing : List Draft}

/-! ## Tables without repetition -/

/-- Entries of a table that a relation holds between stand at one place. -/
def Distinct {α : Type} (r : α → α → Prop) (xs : Array α) : Prop :=
  ∀ (i j : Nat) (x y : α), xs[i]? = some x → xs[j]? = some y → r x y → i = j

theorem Distinct.push {r : α → α → Prop} {xs : Array α} {x : α} (h : Distinct r xs)
    (hnew : ∀ y ∈ xs, ¬ r y x ∧ ¬ r x y) : Distinct r (xs.push x) := by
  intro i j y z hy hz hr
  rw [Array.getElem?_push] at hy hz
  split at hy <;> split at hz <;> rename_i hi hj
  · exact hi.trans hj.symm
  · obtain rfl := Option.some.inj hy
    exact absurd hr (hnew z (Array.mem_of_getElem? hz)).2
  · obtain rfl := Option.some.inj hz
    exact absurd hr (hnew y (Array.mem_of_getElem? hy)).1
  · exact h i j y z hy hz hr

theorem Binary64.numEq_comm (x y : Binary64) : x.numEq y = y.numEq x := by
  unfold numEq
  rw [BEq.comm (a := x.bits), Bool.and_comm (!x.isNaN), Bool.and_comm x.isZero]

theorem Constant.same_comm (a b : Constant) : a.same b = b.same a := by
  cases a <;> cases b <;> simp only [Constant.same, Binary64.numEq_comm, BEq.comm]

namespace NameMap

theorem mem_of_find? (h : names.find? x = some i) : (x, i) ∈ names := by
  induction names with
  | nil => cases h
  | cons q rest ih =>
    rw [find?] at h
    split at h
    · next hname =>
      obtain rfl := Option.some.inj h
      exact hname ▸ List.mem_cons_self
    · exact List.mem_cons_of_mem _ (ih h)

theorem mem_of_mem_remove {p : String × Nat} (h : p ∈ names.remove x) : p ∈ names ∧ p.1 ≠ x := by
  induction names with
  | nil => cases h
  | cons q rest ih =>
    rw [remove] at h
    split at h
    · exact ⟨List.mem_cons_of_mem _ (ih h).1, (ih h).2⟩
    · rcases List.mem_cons.mp h with rfl | h
      · exact ⟨List.mem_cons_self, ‹_›⟩
      · exact ⟨List.mem_cons_of_mem _ (ih h).1, (ih h).2⟩

theorem nodup_remove (x : String) (h : (names.map Prod.fst).Nodup) :
    ((names.remove x).map Prod.fst).Nodup := by
  induction names with
  | nil => exact h
  | cons q rest ih =>
    obtain ⟨hq, hrest⟩ := List.nodup_cons.mp h
    rw [remove]
    split
    · exact ih hrest
    · refine List.nodup_cons.mpr ⟨fun hmem => hq ?_, ih hrest⟩
      obtain ⟨p, hp, hname⟩ := List.mem_map.mp hmem
      exact List.mem_map.mpr ⟨p, (mem_of_mem_remove hp).1, hname⟩

theorem nodup_insert (x : String) (i : Nat) (h : (names.map Prod.fst).Nodup) :
    ((names.insert x i).map Prod.fst).Nodup := by
  refine List.nodup_cons.mpr ⟨fun hmem => ?_, nodup_remove x h⟩
  obtain ⟨p, hp, hname⟩ := List.mem_map.mp hmem
  exact (mem_of_mem_remove hp).2 hname

end NameMap

/-! ## The invariant -/

/-- The records of names agree with the table of locals. -/
structure NamesSound (locals : Array Local) (visible : NameMap) (opened : List Nat) : Prop where
  /-- No local ends before it begins. -/
  ranges : ∀ v ∈ locals, v.startPc ≤ v.endPc
  /-- Scopes hold locals of the table. -/
  opened : ∀ i ∈ opened, i < locals.size
  /-- A visible name has one entry. -/
  once : (visible.map Prod.fst).Nodup
  /-- It stands for a local of that name. -/
  visible : ∀ p ∈ visible, ∃ v, locals[p.2]? = some v ∧ v.name = p.1
  /-- What a local hides is an earlier one of the same name. -/
  shadowed : ∀ (i : Nat) (v : Local), locals[i]? = some v → ∀ j, v.shadowed = some j →
    j < i ∧ ∃ u, locals[j]? = some u ∧ u.name = v.name

/-- The invariant of a function under construction. -/
structure Draft.Sound (d : Draft) : Prop where
  lines : d.lines.size = d.code.size
  used : d.registers.used ≤ d.registers.peak
  names : NamesSound d.locals d.visible d.opened
  upvalues : Distinct (fun a b : Capture => a.name = b.name) d.upvalues
  count : d.upvalues.size ≤ maxUpvalues
  constants : Distinct (fun a b : Constant => a.same b = true) d.constants

namespace NamesSound

variable {locals locals' : Array Local} {visible : NameMap} {opened : List Nat}

section

variable (h : NamesSound locals visible opened)

include h

theorem subset {opened' : List Nat} (hsub : ∀ i ∈ opened', i ∈ opened) :
    NamesSound locals visible opened' :=
  ⟨h.ranges, fun i hi => h.opened i (hsub i hi), h.once, h.visible, h.shadowed⟩

/-- Ends and captured flags may change as long as no local ends too early. -/
theorem redeclare
    (hsame : ∀ i : Nat, locals'[i]?.map Local.declared = locals[i]?.map Local.declared)
    (hranges : ∀ v ∈ locals', v.startPc ≤ v.endPc) : NamesSound locals' visible opened := by
  have hforth : ∀ {i : Nat} {v : Local}, locals[i]? = some v →
      ∃ v', locals'[i]? = some v' ∧ v'.declared = v.declared := fun {i v} hv => by
    have hdecl := hsame i
    rw [hv] at hdecl
    exact Option.map_eq_some_iff.mp hdecl
  refine ⟨hranges, fun i hi => ?_, h.once, fun p hp => ?_, fun i v hv j hj => ?_⟩
  · obtain ⟨v', hv', -⟩ := hforth (Array.getElem?_eq_getElem (h.opened i hi))
    exact (Array.getElem?_eq_some_iff.mp hv').1
  · obtain ⟨v, hv, hname⟩ := h.visible p hp
    obtain ⟨v', hv', hdecl⟩ := hforth hv
    exact ⟨v', hv', (congrArg Local.name hdecl).trans hname⟩
  · have hold := hsame i
    rw [hv] at hold
    obtain ⟨u, hu, hdecl⟩ := Option.map_eq_some_iff.mp hold.symm
    have hju : u.shadowed = some j := (congrArg Local.shadowed hdecl).trans hj
    obtain ⟨hlt, t, ht, hname⟩ := h.shadowed i u hu j hju
    obtain ⟨t', ht', htdecl⟩ := hforth ht
    have hsource : u.name = v.name := (congrArg Local.name hdecl :)
    exact ⟨hlt, t', ht', (congrArg Local.name htdecl).trans (hname.trans hsource)⟩

theorem modify (i : Nat) (hdecl : ∀ v, (f v).declared = v.declared)
    (hrange : ∀ v, v.startPc ≤ v.endPc → (f v).startPc ≤ (f v).endPc) :
    NamesSound (locals.modify i f) visible opened := by
  refine h.redeclare (fun j => ?_) fun v hv => ?_
  · rw [Array.getElem?_modify]
    split
    · rw [Option.map_map]
      exact congrArg (Option.map · _) (funext hdecl)
    · rfl
  · obtain ⟨j, hj⟩ := Array.getElem?_of_mem hv
    rw [Array.getElem?_modify] at hj
    split at hj
    · obtain ⟨u, hu, rfl⟩ := Option.map_eq_some_iff.mp hj
      exact hrange u (h.ranges u (Array.mem_of_getElem? hu))
    · exact h.ranges v (Array.mem_of_getElem? hj)

theorem remove (x : String) : NamesSound locals (visible.remove x) opened :=
  ⟨h.ranges, h.opened, NameMap.nodup_remove x h.once,
    fun p hp => h.visible p (NameMap.mem_of_mem_remove hp).1, h.shadowed⟩

theorem insert (hv : locals[i]? = some v) (hname : v.name = x) :
    NamesSound locals (visible.insert x i) opened := by
  refine ⟨h.ranges, h.opened, NameMap.nodup_insert x i h.once, fun p hp => ?_, h.shadowed⟩
  rcases List.mem_cons.mp hp with rfl | hp
  · exact ⟨v, hv, hname⟩
  · exact h.visible p (NameMap.mem_of_mem_remove hp).1

/-- Bringing back what a local of the table hides. -/
theorem restore (hv : locals[i]? = some v) :
    NamesSound locals (visible.restore v.name v.shadowed) opened := by
  cases hj : v.shadowed with
  | none => exact h.remove v.name
  | some j =>
    obtain ⟨-, u, hu, hname⟩ := h.shadowed i v hv j hj
    exact h.insert hu hname

/-- A new local that hides what its name stood for. -/
theorem push (x : String) (slot startPc : Nat) :
    NamesSound (locals.push
        { name := x, slot, startPc, endPc := startPc, shadowed := visible.find? x })
      visible opened := by
  have hkeep : ∀ {i : Nat} {v : Local} (u : Local), locals[i]? = some v →
      (locals.push u)[i]? = some v := fun u hv => Keeps.push locals u _ _ hv
  refine ⟨fun v hv => ?_, fun i hi => ?_, h.once, fun p hp => ?_, fun i v hv j hj => ?_⟩
  · rcases Array.mem_push.mp hv with hv | rfl
    · exact h.ranges v hv
    · exact Nat.le_refl _
  · rw [Array.size_push]
    exact Nat.lt_succ_of_lt (h.opened i hi)
  · obtain ⟨v, hv, hname⟩ := h.visible p hp
    exact ⟨v, hkeep _ hv, hname⟩
  · rw [Array.getElem?_push] at hv
    split at hv
    · next hi =>
      obtain rfl := Option.some.inj hv
      obtain ⟨u, hu, hname⟩ := h.visible (x, j) (NameMap.mem_of_find? hj)
      exact ⟨hi ▸ (Array.getElem?_eq_some_iff.mp hu).1, u, hkeep _ hu, hname⟩
    · obtain ⟨hlt, u, hu, hname⟩ := h.shadowed i v hv j hj
      exact ⟨hlt, u, hkeep _ hu, hname⟩

end

end NamesSound

/-! ## What only grows -/

namespace Draft

/-- The registers of the locals are within the limit. -/
def SlotsFit (d : Draft) : Prop := ∀ v ∈ d.locals, v.slot < d.registers.limit

/-- The pending breaks are nested like the loops they belong to. -/
def BreaksNested (d : Draft) : Prop := Scope.BreaksNested d.scopes.length d.scopes

/-- How a function may change over any number of steps. -/
structure Evolves (d d' : Draft) : Prop where
  sound : d.Sound → d'.Sound
  slots : d.SlotsFit → d'.SlotsFit
  limit : d'.registers.limit = d.registers.limit
  peak : d.registers.peak ≤ d'.registers.peak
  lines : Keeps d.lines d'.lines
  upvalues : Keeps d.upvalues d'.upvalues
  nested : Keeps d.nested d'.nested
  breaks : d.BreaksNested → d'.BreaksNested

theorem Evolves.refl (d : Draft) : d.Evolves d :=
  ⟨id, id, rfl, Nat.le_refl _, .refl _, .refl _, .refl _, id⟩

theorem Evolves.trans {d' d'' : Draft} (h₁ : d.Evolves d') (h₂ : d'.Evolves d'') : d.Evolves d'' :=
  ⟨h₂.sound ∘ h₁.sound, h₂.slots ∘ h₁.slots, h₂.limit.trans h₁.limit, Nat.le_trans h₁.peak h₂.peak,
    h₁.lines.trans h₂.lines, h₁.upvalues.trans h₂.upvalues, h₁.nested.trans h₂.nested,
    h₂.breaks ∘ h₁.breaks⟩

/-- Only the names are touched. -/
theorem Evolves.of_names {visible : NameMap} (h : NamesSound d.locals d.visible d.opened →
      NamesSound locals visible (Scope.allLocals scopes))
    (hslots : d.SlotsFit → ∀ v ∈ locals, v.slot < d.registers.limit)
    (hbreaks : d.BreaksNested → Scope.BreaksNested scopes.length scopes) :
    d.Evolves { d with locals, visible, scopes } :=
  ⟨fun hd => ⟨hd.lines, hd.used, h hd.names, hd.upvalues, hd.count, hd.constants⟩, hslots, rfl,
    Nat.le_refl _, .refl _, .refl _, .refl _, hbreaks⟩

/-- Locals whose registers stay as they are stay within the limit. -/
theorem SlotsFit.modify (h : ∀ v ∈ locals, v.slot < d.registers.limit)
    (hf : ∀ v, (f v).slot = v.slot) : ∀ v ∈ locals.modify i f, v.slot < d.registers.limit := by
  intro v hv
  obtain ⟨j, hj⟩ := Array.getElem?_of_mem hv
  rw [Array.getElem?_modify] at hj
  split at hj
  · obtain ⟨u, hu, rfl⟩ := Option.map_eq_some_iff.mp hj
    rw [hf]
    exact h u (Array.mem_of_getElem? hu)
  · exact h v (Array.mem_of_getElem? hj)

/-- Only the code is touched, and each instruction keeps a line. -/
theorem Evolves.of_code {code : Array Instruction} {lines : Array Nat}
    (h : d.lines.size = d.code.size → lines.size = code.size) (hlines : Keeps d.lines lines) :
    d.Evolves { d with code, lines } :=
  ⟨fun hd => ⟨h hd.lines, hd.used, hd.names, hd.upvalues, hd.count, hd.constants⟩, id, rfl,
    Nat.le_refl _, hlines, .refl _, .refl _, id⟩

/-- Nothing depends on the lines and parameters of a function. -/
theorem evolves_heading (d : Draft) (line lineDefined lastLineDefined paramCount : Nat)
    (isVararg : Bool) :
    d.Evolves { d with line, lineDefined, lastLineDefined, paramCount, isVararg } :=
  ⟨fun hd => ⟨hd.lines, hd.used, hd.names, hd.upvalues, hd.count, hd.constants⟩, id, rfl,
    Nat.le_refl _, .refl _, .refl _, .refl _, id⟩

end Draft

namespace Workspace

/-- The function being written and those around it, the innermost first. -/
def stack (w : Workspace) : List Draft := w.draft :: w.enclosing

/-- How a workspace may change while the same functions are under construction. -/
structure Evolves (w w' : Workspace) : Prop where
  options : w'.options = w.options
  stack : List.Forall₂ Draft.Evolves w.stack w'.stack

theorem forall₂_evolves_refl (ds : List Draft) : List.Forall₂ Draft.Evolves ds ds :=
  List.forall₂_same.mpr fun d _ => .refl d

theorem Evolves.refl (w : Workspace) : w.Evolves w := ⟨rfl, forall₂_evolves_refl _⟩

theorem Evolves.trans {w'' : Workspace} (h₁ : w.Evolves w') (h₂ : w'.Evolves w'') :
    w.Evolves w'' := by
  refine ⟨h₂.options.trans h₁.options, ?_⟩
  have hstack := h₁.stack
  have hstack' := h₂.stack
  generalize w.stack = ds at hstack ⊢
  generalize w'.stack = ds' at hstack hstack'
  generalize w''.stack = ds'' at hstack' ⊢
  induction hstack generalizing ds'' with
  | nil =>
    cases hstack'
    exact .nil
  | cons hd _ ih =>
    cases hstack' with
    | cons hd' hds' => exact .cons (hd.trans hd') (ih _ hds')

theorem Evolves.of_draft (h : w.draft.Evolves d) :
    w.Evolves { w with draft := d } := ⟨rfl, .cons h (forall₂_evolves_refl _)⟩

end Workspace

/-- Whether it finishes or rejects the chunk, a step lets the functions of a
workspace evolve. -/
def EvolvesFrom {α : Type} (m : LowerM α) (w : Workspace) : Prop :=
  match m w with
  | .ok _ w' => w.Evolves w'
  | .error (.rejected _) w' => w.Evolves w'
  | .error (.misused _) _ => True

/-- A step lets the functions of every workspace evolve. -/
def Evolving (α : Type) (m : LowerM α) : Prop := ∀ w, EvolvesFrom m w

section

variable {α β : Type} {m : LowerM α} {f : α → LowerM β} {w w' : Workspace}

theorem EvolvesFrom.of_ok {x : α} (h : EvolvesFrom m w) (hrun : m w = .ok x w') : w.Evolves w' := by
  rw [EvolvesFrom, hrun] at h
  exact h

theorem EvolvesFrom.of_rejected {why : Rejection} (h : EvolvesFrom m w)
    (hrun : m w = .error (.rejected why) w') : w.Evolves w' := by
  rw [EvolvesFrom, hrun] at h
  exact h

/-- Steps in sequence. -/
theorem EvolvesFrom.bind (h : EvolvesFrom m w)
    (hf : ∀ x w₁, m w = .ok x w₁ → EvolvesFrom (f x) w₁) : EvolvesFrom (m >>= f) w := by
  have hbind : (m >>= f) w = EStateM.bind m f w := rfl
  unfold EvolvesFrom at h ⊢
  rw [hbind, EStateM.bind]
  cases hrun : m w with
  | ok x w₁ =>
    rw [hrun] at h
    have hnext := hf x w₁ hrun
    unfold EvolvesFrom at hnext
    dsimp only
    split <;> rename_i hrun' <;> rw [hrun'] at hnext
    · exact h.trans hnext
    · exact h.trans hnext
    · trivial
  | error e w₁ =>
    rw [hrun] at h
    cases e <;> exact h

theorem evolving_bind (h : Evolving α m) (hf : ∀ x, Evolving β (f x)) : Evolving β (m >>= f) :=
  fun w => (h w).bind fun x w₁ _ => hf x w₁

theorem evolving_pure (x : α) : Evolving α (pure x) := fun w => Workspace.Evolves.refl w

theorem evolving_view (g : Draft → α) : Evolving α (view g) := fun w => Workspace.Evolves.refl w

theorem evolving_reject (why : Rejection) : Evolving α (reject why) :=
  fun w => Workspace.Evolves.refl w

theorem evolving_misuse (how : Misuse) : Evolving α (misuse how) := fun _ => trivial

theorem evolving_record (e : Event) : Evolving Unit (record e) :=
  fun _ => ⟨rfl, Workspace.forall₂_evolves_refl _⟩

@[simp] theorem evolvesFrom_view_bind {g : Draft → α} :
    EvolvesFrom (view g >>= f) w ↔ EvolvesFrom (f (g w.draft)) w := by
  have hbind : (view g >>= f) w = f (g w.draft) w := rfl
  rw [EvolvesFrom, EvolvesFrom, hbind]

theorem evolving_update {g : Draft → Draft} (h : ∀ d : Draft, d.Evolves (g d)) :
    Evolving Unit (update g) := fun w => Workspace.Evolves.of_draft (h w.draft)

end

/-! ## The steps of the builder -/

section

variable {w : Workspace}

theorem keepTaken_evolves {n : Nat} :
    EvolvesFrom (keepTaken (w.draft.registers.takeRun? n)) w := by
  unfold Registers.takeRun?
  split
  · refine EvolvesFrom.bind (.of_draft
      ⟨fun h => ?_, id, rfl, Nat.le_max_left _ _, .refl _, .refl _, .refl _, id⟩)
      fun _ w₁ _ => evolving_pure _ w₁
    exact ⟨h.lines, Nat.le_max_right _ _, h.names, h.upvalues, h.count, h.constants⟩
  · exact Workspace.Evolves.refl w

theorem takeRegisters_evolving (n : Nat) : Evolving Nat (takeRegisters n) := by
  intro w
  unfold takeRegisters
  rw [evolvesFrom_view_bind, Registers.takeRun]
  split
  · next heq =>
    split at heq <;> cases heq
    exact keepTaken_evolves
  · exact evolving_misuse _ _

theorem takeRegister_evolving : Evolving Nat takeRegister := by
  intro w
  rw [takeRegister, evolvesFrom_view_bind]
  exact keepTaken_evolves

/-- An operation that gives registers back goes by how many are in use, and lowers that
number and nothing else. -/
def GivesBack (f : Registers → Except Misuse Registers) : Prop :=
  ∀ used, (∃ m, ∀ r : Registers, r.used = used → f r = .error m) ∨
    ∃ left ≤ used, ∀ r : Registers, r.used = used → f r = .ok { r with used := left }

theorem givesBack_free (n : Nat) : GivesBack (·.free n) := by
  intro used
  by_cases h : n ≤ used
  · exact Or.inr ⟨used - n, Nat.sub_le _ _, fun r hr => hr ▸ if_pos (hr ▸ h)⟩
  · exact Or.inl ⟨.freeBeyondUsed n used, fun r hr => hr ▸ if_neg (hr ▸ h)⟩

theorem givesBack_freeTo (mark : Nat) : GivesBack (·.freeTo mark) := by
  intro used
  by_cases h : mark ≤ used
  · exact Or.inr ⟨mark, h, fun r hr => if_pos (hr ▸ h)⟩
  · exact Or.inl ⟨.markAboveUsed mark used, fun r hr => hr ▸ if_neg (hr ▸ h)⟩

theorem givesBack_release (register : Nat) : GivesBack (·.release register) := by
  intro used
  by_cases h : register + 1 = used
  · exact Or.inr ⟨register, by omega, fun r hr => if_pos (h.trans hr.symm)⟩
  · exact Or.inl ⟨.releaseOutOfOrder register used, fun r hr => hr ▸ if_neg (hr ▸ h)⟩

theorem giveBack_evolving {f : Registers → Except Misuse Registers} (hf : GivesBack f) :
    Evolving Unit (giveBack f) := by
  intro w
  rw [giveBack, evolvesFrom_view_bind]
  rcases hf w.draft.registers.used with ⟨m, hrun⟩ | ⟨left, hle, hrun⟩ <;> rw [hrun _ rfl]
  · exact evolving_misuse m w
  · exact Workspace.Evolves.of_draft
      ⟨fun h => ⟨h.lines, Nat.le_trans hle h.used, h.names, h.upvalues, h.count, h.constants⟩, id,
        rfl, Nat.le_refl _, .refl _, .refl _, .refl _, id⟩

theorem setLine_evolving (line : Nat) : Evolving Unit (setLine line) :=
  evolving_update fun d => d.evolves_heading ..

theorem emit_evolving (line : Nat) (i : Instruction) : Evolving Nat (emit line i) := by
  refine evolving_bind (evolving_view _) fun pc => evolving_bind (evolving_update fun d => ?_)
    fun _ => evolving_pure pc
  refine Draft.Evolves.of_code (fun h => ?_) (.push _ _)
  rw [Array.size_push, Array.size_push, h]

theorem setInstruction_evolving (pc : Nat) (i : Instruction) :
    Evolving Unit (setInstruction pc i) := by
  refine evolving_bind (evolving_view _) fun size => ?_
  split
  · refine evolving_update fun d => Draft.Evolves.of_code (fun h => ?_) (.refl _)
    rw [Array.size_setIfInBounds, h]
  · exact evolving_misuse _

theorem offsetBetween_evolving (origin target : Nat) :
    Evolving Int (offsetBetween origin target) := by
  refine evolving_bind (evolving_view _) fun offset => ?_
  split
  · exact evolving_pure offset
  · refine evolving_bind (evolving_view _) fun pc => ?_
    split
    · exact evolving_bind (evolving_view _) fun _ => evolving_reject _
    · exact evolving_misuse _

theorem aimJump_evolving (pc target : Nat) : Evolving Unit (aimJump pc target) := by
  refine evolving_bind (offsetBetween_evolving pc target) fun offset =>
    evolving_bind (evolving_view _) fun i => ?_
  cases i with
  | some i => exact evolving_bind (setInstruction_evolving pc _) fun _ => evolving_record _
  | none => exact evolving_misuse _

theorem constantIndex_evolving (k : Constant) : Evolving Nat (constantIndex k) := by
  intro w
  rw [constantIndex, evolvesFrom_view_bind]
  split
  · exact evolving_pure _ w
  · next hidx =>
      rw [evolvesFrom_view_bind]
      refine EvolvesFrom.bind (.of_draft
        ⟨fun h => ?_, id, rfl, Nat.le_refl _, .refl _, .refl _, .refl _, id⟩)
        fun _ w₁ _ => evolving_pure _ w₁
      refine ⟨h.lines, h.used, h.names, h.upvalues, h.count, h.constants.push fun c hc => ?_⟩
      have hne := List.findIdx?_eq_none_iff.mp hidx c (Array.mem_toList_iff.mpr hc)
      exact ⟨by simp [hne], by simp [Constant.same_comm k, hne]⟩

/-! ### Locals and scopes -/

theorem Draft.evolves_declare (x : String) (startPc : Nat) (hslot : slot < d.registers.limit) :
    d.Evolves (d.declare x slot startPc) := by
  refine .of_names (fun h => ?_) (fun h v hv => ?_) fun h => ?_
  case refine_2 =>
    rcases Array.mem_push.mp hv with hv | rfl
    · exact h v hv
    · exact hslot
  case refine_3 =>
    unfold Draft.BreaksNested at h
    cases hscopes : d.scopes with
    | nil => trivial
    | cons s rest =>
      rw [hscopes] at h
      exact h.addLocals [d.locals.size]
  have hpush := h.push x slot startPc
  refine ⟨hpush.ranges, fun i hi => ?_, NameMap.nodup_insert x _ h.once,
    (hpush.insert Array.getElem?_push_size rfl).visible, hpush.shadowed⟩
  have hopened : (d.declare x slot startPc).opened = d.opened ∨
      (d.declare x slot startPc).opened = d.locals.size :: d.opened := by
    unfold Draft.opened Draft.declare
    cases d.scopes with
    | nil => exact Or.inl rfl
    | cons s rest => exact Or.inr rfl
  replace hi : i ∈ (d.declare x slot startPc).opened := hi
  rcases hopened with ho | ho <;> rw [ho] at hi
  · exact hpush.opened i hi
  · rcases List.mem_cons.mp hi with rfl | hi
    · exact Nat.lt_of_lt_of_eq (Nat.lt_succ_self _) (Array.size_push _).symm
    · exact hpush.opened i hi

theorem takeRegister_ensures :
    Ensures False takeRegister w fun r w' =>
      r < w.draft.registers.limit ∧ ∃ registers, registers.limit = w.draft.registers.limit ∧
        w' = { w with draft := { w.draft with registers } } := by
  rw [takeRegister, ensures_view_bind, Registers.take?, Registers.takeRun?]
  split
  · next h =>
    refine ⟨h, _, ?_, rfl⟩
    rfl
  · trivial

/-- A local is declared in a register that was just taken. -/
theorem declare_evolves {w₁ : Workspace} (hrun : takeRegister w = .ok slot w₁) (x : String)
    (startPc : Nat) : EvolvesFrom (do update (·.declare x slot startPc); pure slot) w₁ := by
  obtain ⟨hslot, registers, hlimit, rfl⟩ := takeRegister_ensures.of_ok hrun
  exact EvolvesFrom.bind (.of_draft (Draft.evolves_declare x startPc (hlimit ▸ hslot)))
    fun _ w₂ _ => evolving_pure slot w₂

theorem declareLocal_evolving (x : String) (startPc : Nat) :
    Evolving Nat (declareLocal x startPc) := fun w =>
  (takeRegister_evolving w).bind fun _ _ hrun => declare_evolves hrun x startPc

theorem localAt_evolving (i : Nat) : Evolving Local (localAt i) := by
  refine evolving_bind (evolving_view _) fun v => ?_
  cases v with
  | some v => exact evolving_pure v
  | none => exact evolving_misuse _

theorem localAt_ensures (i : Nat) :
    Ensures False (localAt i) w fun v w' => w.draft.locals[i]? = some v ∧ w' = w := by
  rw [localAt, ensures_view_bind]
  split
  · next v hv => exact ⟨hv, rfl⟩
  · exact ensures_misuse.mpr not_false

theorem slotOf?_evolving (x : String) : Evolving (Option Nat) (slotOf? x) := by
  refine evolving_bind (evolving_view _) fun i => ?_
  cases i with
  | some i => exact evolving_bind (localAt_evolving i) fun _ => evolving_pure _
  | none => exact evolving_pure none

/-- Ends of locals may be moved out. -/
theorem Draft.evolves_prolongLocals (d : Draft) (first count delta : Nat) :
    d.Evolves (d.prolongLocals first count delta) := by
  refine .of_names (fun h => ?_) (fun h => ?_) id
  · generalize List.range' first count = is
    generalize d.locals = vars at h ⊢
    induction is generalizing vars with
    | nil => exact h
    | cons i rest ih =>
      refine ih _ (h.modify i (fun _ => rfl) fun v hv => ?_)
      exact Nat.le_trans hv (Nat.le_add_right _ _)
  · unfold SlotsFit at h
    generalize List.range' first count = is
    generalize d.locals = vars at h ⊢
    induction is generalizing vars with
    | nil => exact h
    | cons i rest ih => exact ih _ (SlotsFit.modify h fun _ => rfl)

theorem prolongLocals_evolving (first past delta : Nat) :
    Evolving Unit (prolongLocals first past delta) := by
  refine evolving_bind (evolving_view _) fun count => ?_
  split
  · exact evolving_update fun d => d.evolves_prolongLocals first _ delta
  · exact evolving_misuse _

/-- The open scopes may change as long as no local comes in. -/
theorem Draft.evolves_scopes (h : ∀ i ∈ Scope.allLocals scopes, i ∈ d.opened)
    (hbreaks : d.BreaksNested → Scope.BreaksNested scopes.length scopes) :
    d.Evolves { d with scopes } :=
  .of_names (fun hnames => hnames.subset h) id hbreaks

theorem openScope_evolving (breakable : Bool) : Evolving Unit (openScope breakable) :=
  evolving_bind (evolving_update fun _ =>
    Draft.evolves_scopes (fun _ hi => hi) fun h => h.opened breakable) fun _ =>
    evolving_bind (evolving_view _) fun _ => evolving_record _

theorem addBreak_evolving (pc line : Nat) : Evolving Unit (addBreak pc line) := by
  intro w
  rw [addBreak, evolvesFrom_view_bind, Scope.addBreak?_eq]
  split
  · next scopes heq =>
    split at heq <;> cases heq
    next hloop =>
    refine Workspace.Evolves.of_draft (Draft.evolves_scopes (fun i hi => ?_) fun h => ?_)
    · rwa [Scope.allLocals_addBreaks] at hi
    · rw [Scope.length_addBreaks]
      refine h.addBreaks fun b hb => ?_
      obtain rfl := List.mem_singleton.mp hb
      exact Nat.sub_lt (Scope.length_pos_of_inLoop hloop) Nat.one_pos
  · exact evolving_reject _ w

theorem localsAt_evolving (is : List Nat) : Evolving (List Local) (localsAt is) := by
  induction is with
  | nil => exact evolving_pure []
  | cons i rest ih =>
    exact evolving_bind (localAt_evolving i) fun v => evolving_bind ih fun vars =>
      evolving_pure (v :: vars)

theorem closeLevel_evolving : Evolving Nat closeLevel := by
  refine evolving_bind (evolving_view _) fun scopes => ?_
  cases scopes with
  | nil => exact evolving_pure 0
  | cons s rest => exact evolving_bind (localsAt_evolving s.locals) fun _ => evolving_pure _

theorem patchBreaks_evolving (close target : Nat) (breaks : List OpenBreak) :
    Evolving Unit (patchBreaks close target breaks) := by
  induction breaks with
  | nil => exact evolving_pure ()
  | cons b rest ih =>
    refine evolving_bind ?_ fun _ => ih
    exact evolving_bind (offsetBetween_evolving b.pc target) fun _ =>
      evolving_bind (setInstruction_evolving b.pc _) fun _ => evolving_record _

theorem Draft.evolves_endLocal (hv : d.locals[i]? = some v) (endPc : Nat) :
    d.Evolves (d.endLocal i v endPc) := by
  have hlt := (Array.getElem?_eq_some_iff.mp hv).1
  refine .of_names (fun h => (h.restore hv).redeclare (fun j => ?_) fun u hu => ?_)
    (fun h u hu => ?_) id
  · rw [Array.getElem?_setIfInBounds]
    split
    · next hij =>
      rw [← hij, hv]
      rfl
    · rfl
  · obtain ⟨j, hj⟩ := Array.getElem?_of_mem hu
    rw [Array.getElem?_setIfInBounds] at hj
    split at hj
    · obtain rfl := Option.some.inj hj
      exact Nat.le_max_right _ _
    · exact h.ranges u (Array.mem_of_getElem? hj)
  · obtain ⟨j, hj⟩ := Array.getElem?_of_mem hu
    rw [Array.getElem?_setIfInBounds] at hj
    split at hj
    · obtain rfl := Option.some.inj hj
      exact h v (Array.mem_of_getElem? hv)
    · exact h u (Array.mem_of_getElem? hj)

theorem endLocals_evolving (endPc : Nat) (is : List Nat) : Evolving Unit (endLocals endPc is) := by
  induction is with
  | nil => exact evolving_pure ()
  | cons i rest ih =>
    refine evolving_bind (fun w => ?_) fun _ => ih
    refine (localAt_evolving i w).bind fun v w₁ hrun => ?_
    obtain ⟨hv, rfl⟩ := (localAt_ensures i).of_ok hrun
    exact EvolvesFrom.bind (.of_draft (Draft.evolves_endLocal hv endPc)) fun _ w₂ _ =>
      giveBack_evolving (givesBack_release v.slot) w₂

/-- Finding the close level changes nothing. -/
theorem closeLevel_ensures : Ensures False closeLevel w fun _ w' => w' = w := by
  have hlocals : ∀ is, Ensures False (localsAt is) w fun _ w' => w' = w := by
    intro is
    induction is with
    | nil => exact ensures_pure.mpr rfl
    | cons i rest ih =>
      refine (localAt_ensures i).bind fun v w₁ h => ?_
      obtain ⟨-, rfl⟩ := h
      exact ih.bind fun vars w₂ h => ensures_pure.mpr h
  rw [closeLevel, ensures_view_bind]
  split
  · exact ensures_pure.mpr rfl
  · exact (hlocals _).bind fun vars w₁ h => ensures_pure.mpr h

theorem closeScope_evolving (endPc : Nat) : Evolving Unit (closeScope endPc) := by
  intro w
  refine (closeLevel_evolving w).bind fun close w₁ hrun => ?_
  obtain rfl := closeLevel_ensures.of_ok hrun
  rw [evolvesFrom_view_bind]
  split
  · exact evolving_pure () w₁
  · next scope outer hscopes =>
    have houter : ∀ i ∈ Scope.allLocals outer, i ∈ w₁.draft.opened := fun i hi => by
      rw [Draft.opened, hscopes, List.flatMap_cons]
      exact List.mem_append_right _ hi
    have hrest : Evolving Unit (do
        endLocals endPc scope.locals
        record (.scopeClosed (outer.length + 1) endPc)) :=
      evolving_bind (endLocals_evolving endPc scope.locals) fun _ => evolving_record _
    split
    · next breaks hloop =>
      refine EvolvesFrom.bind (.of_draft (Draft.evolves_scopes houter fun h => ?_)) fun _ w₂ _ => ?_
      · rw [Draft.BreaksNested, hscopes, Scope.breaksNested_cons_loop hloop] at h
        exact h.2
      exact evolving_bind (evolving_view _)
        (fun target => evolving_bind (patchBreaks_evolving close target _) fun _ => hrest) w₂
    · next hplain =>
      refine EvolvesFrom.bind (.of_draft
        (Draft.evolves_scopes (fun i hi => houter i ?_) fun h => ?_)) fun _ w₂ _ => hrest w₂
      · rwa [Scope.allLocals_raiseBreaks] at hi
      · rw [Draft.BreaksNested, hscopes, Scope.breaksNested_cons_plain hplain] at h
        rw [Scope.length_raiseBreaks]
        exact h.raiseBreaks close List.length_pos_iff.mpr

/-! ### Outer variables and nested functions -/

theorem Draft.evolves_capture (d : Draft) (i : Nat) : d.Evolves (d.capture i) :=
  .of_names (fun h => h.modify i (fun _ => rfl) fun _ hv => hv)
    (fun h => SlotsFit.modify h fun _ => rfl) id

/-- The search for an outer variable lets all functions evolve. -/
structure Resolution.Evolves (d : Draft) (enclosing : List Draft) (r : Resolution) : Prop where
  draft : d.Evolves r.draft
  around : List.Forall₂ Draft.Evolves enclosing r.enclosing

/-- An outer variable is added only under a name that is not there yet. -/
theorem addCapture_evolves {c : Capture} {enclosing' : List Draft}
    (hnew : d.upvalues.toList.findIdx? (·.name == c.name) = none)
    (h : List.Forall₂ Draft.Evolves enclosing enclosing') :
    (d.addCapture c enclosing').Evolves d enclosing := by
  unfold Draft.addCapture
  split
  · next hlt =>
    refine ⟨⟨fun hd => ⟨hd.lines, hd.used, hd.names, ?_, ?_, hd.constants⟩, id, rfl, Nat.le_refl _,
      .refl _, .push _ _, .refl _, id⟩, h⟩
    · refine hd.upvalues.push fun u hu => ?_
      have hne := List.findIdx?_eq_none_iff.mp hnew u (Array.mem_toList_iff.mpr hu)
      have hname : u.name ≠ c.name := by simpa using hne
      exact ⟨hname, hname.symm⟩
    · show (d.upvalues.push c).size ≤ maxUpvalues
      rw [Array.size_push]
      exact hlt
  · exact ⟨.refl d, h⟩

theorem resolve_evolves (x : String) :
    ∀ d : Draft, (d.resolve x enclosing).Evolves d enclosing := by
  induction enclosing with
  | nil =>
    intro d
    unfold Draft.resolve
    split <;> exact ⟨.refl d, .nil⟩
  | cons parent rest ih =>
    intro d
    have hparent := ih parent
    unfold Draft.resolve
    split
    · exact ⟨.refl d, Workspace.forall₂_evolves_refl _⟩
    · next hnew =>
      dsimp only
      split
      · split
        · exact addCapture_evolves hnew
            (.cons (parent.evolves_capture _) (Workspace.forall₂_evolves_refl _))
        · exact ⟨.refl d, Workspace.forall₂_evolves_refl _⟩
      · split
        · exact addCapture_evolves hnew (.cons hparent.draft hparent.around)
        · exact ⟨.refl d, .cons hparent.draft hparent.around⟩
        · exact ⟨.refl d, .cons hparent.draft hparent.around⟩

theorem upvalueOf?_evolving (x : String) : Evolving (Option Nat) (upvalueOf? x) := by
  intro w
  have hresolve : (w.draft.resolve x w.enclosing).Evolves w.draft w.enclosing :=
    resolve_evolves x w.draft
  have hevolves : w.Evolves { w with
      draft := (w.draft.resolve x w.enclosing).draft
      enclosing := (w.draft.resolve x w.enclosing).enclosing } :=
    ⟨rfl, .cons hresolve.draft hresolve.around⟩
  unfold upvalueOf? EvolvesFrom
  dsimp only
  cases (w.draft.resolve x w.enclosing).index with
  | ok u => exact hevolves
  | error e =>
    cases e with
    | rejected why => exact hevolves
    | misused how => trivial

/-- While a function inside is written, those around it evolve. -/
theorem Workspace.Evolves.leave (h : w.enter.Evolves w') : w.Evolves w'.leave := by
  have hstack := h.stack
  rw [Workspace.stack, Workspace.stack, Workspace.enter] at hstack
  obtain ⟨-, henclosing⟩ := List.forall₂_cons.mp hstack
  unfold Workspace.leave
  split
  · next hnil =>
    rw [hnil] at henclosing
    cases henclosing
  · next d rest hcons =>
    rw [hcons] at henclosing
    exact ⟨h.options, henclosing⟩

theorem nested_evolving {body : LowerM α} (h : Evolving α body) :
    Evolving (Draft × α) (nested body) := by
  intro w
  have hbody := h w.enter
  unfold EvolvesFrom at hbody ⊢
  unfold nested
  cases hrun : body w.enter with
  | ok x w' =>
    rw [hrun] at hbody
    exact Workspace.Evolves.leave hbody
  | error e w' =>
    rw [hrun] at hbody
    cases e with
    | rejected why => exact Workspace.Evolves.leave hbody
    | misused how => trivial

theorem loadFunction_evolving {write : LowerM Unit} (lastLine a : Nat) (h : Evolving Unit write) :
    Evolving Unit (loadFunction lastLine write a) := by
  refine evolving_bind (nested_evolving h) fun inner => evolving_bind (evolving_view _) fun i => ?_
  have hfinish : Evolving Prototype (finishFunction inner.1) :=
    fun w => evolving_bind (evolving_record _) (fun _ => evolving_pure (inner.1.finish w.options)) w
  refine evolving_bind hfinish fun p => evolving_bind (evolving_update fun d => ?_) fun _ =>
    evolving_bind (emit_evolving lastLine _) fun _ => evolving_pure ()
  exact ⟨fun hd => ⟨hd.lines, hd.used, hd.names, hd.upvalues, hd.count, hd.constants⟩, id, rfl,
    Nat.le_refl _, .refl _, .refl _, .push _ _, id⟩

/-- All of lowering lets functions evolve. -/
theorem evolving_stepwise : Stepwise Evolving where
  pure := evolving_pure
  bind := evolving_bind
  reject := evolving_reject
  misuse := evolving_misuse
  options := fun h _ w => h w.options w
  currentLine := evolving_view _
  setLine := setLine_evolving
  here := evolving_view _
  usedRegisters := evolving_view _
  takeRegister := takeRegister_evolving
  takeRegisters := takeRegisters_evolving
  freeRegisters := fun n => giveBack_evolving (givesBack_free n)
  freeRegistersTo := fun mark => giveBack_evolving (givesBack_freeTo mark)
  emit := emit_evolving
  offsetBetween := offsetBetween_evolving
  aimJump := aimJump_evolving
  constantIndex := constantIndex_evolving
  declareLocal := declareLocal_evolving
  localAt := localAt_evolving
  slotOf? := slotOf?_evolving
  declaredCount := evolving_view _
  prolongLocals := prolongLocals_evolving
  openScope := openScope_evolving
  addBreak := addBreak_evolving
  closeLevel := closeLevel_evolving
  closeScope := closeScope_evolving
  upvalueOf? := upvalueOf?_evolving
  heading := fun _ _ _ _ => evolving_update fun d => d.evolves_heading ..
  function := loadFunction_evolving

end

end LuaLowering
