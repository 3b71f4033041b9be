import LuaLowering.Proofs.Layout.Loops
import LuaLowering.Proofs.Lowering.Leave
import LuaLowering.Proofs.Neutrality

/-!
# Names resolve as in a stack of scopes

The builder does not search scopes for a name. It keeps one map for all of them, and
with each local the one that it hides; leaving a scope takes the locals back in reverse
order. What a reader of the source has in mind is simpler, a stack of scopes in which
a name stands for its latest declaration. `Draft.scopeStack` reads that stack off a
function under construction, and each step of the builder does to it what it says.

The agreement between the map, the hidden locals and the registers is `Draft.Tracks`.
It relies on registers being in use for locals alone, which is the case as long as
scopes are entered and left and locals declared, and nothing else is done.
-/

namespace LuaLowering

open LowerM

variable {is : List Nat} {α : Type} {m : LowerM α}

/-! ## Stacks of scopes -/

/-- The open scopes, the innermost first, each with the names and registers of its locals,
the latest first. -/
abbrev ScopeStack := List (List (String × Nat))

/-- Something done to the scopes of a function. -/
inductive ScopeStep where
  | enter (breakable : Bool)
  | declare (x : String) (startPc : Nat)
  | exit (endPc : Nat)
deriving DecidableEq

namespace ScopeStack

/-- The register of the latest declaration of a name. -/
def slot? (S : ScopeStack) (x : String) : Option Nat :=
  (S.flatten.find? (·.1 == x)).map (·.2)

/-- The registers of the locals, in the order of their declarations. -/
def slots (S : ScopeStack) : List Nat := S.flatten.reverse.map (·.2)

/-- What a step makes of a stack, where so many registers may be in use. A local takes the
first register that no other has, if there is one left. -/
def apply (limit : Nat) (S : ScopeStack) : ScopeStep → ScopeStack
  | .enter _ => [] :: S
  | .declare x _ =>
    if S.flatten.length < limit then S.modifyHead ((x, S.flatten.length) :: ·) else S
  | .exit _ => S.tail

end ScopeStack

namespace ScopeStep

/-- What a step makes of a workspace. -/
def apply (w : Workspace) : ScopeStep → Workspace
  | .enter breakable => stateAfter (openScope breakable) w
  | .declare x startPc => stateAfter (declareLocal x startPc) w
  | .exit endPc => stateAfter (closeScope endPc) w

/-- Whether steps stay inside the outermost scope, with some scopes open in it at first. -/
def keepRoot : Nat → List ScopeStep → Bool
  | _, [] => true
  | inner, .enter _ :: rest => keepRoot (inner + 1) rest
  | inner, .declare _ _ :: rest => keepRoot inner rest
  | 0, .exit _ :: _ => false
  | inner + 1, .exit _ :: rest => keepRoot inner rest

end ScopeStep

/-! ## The stack of a function -/

namespace Draft

variable {d : Draft}

/-- The name and the register of the local at an index. -/
def binding? (d : Draft) (i : Nat) : Option (String × Nat) :=
  (d.declarationAt? i).map fun v => (v.name, v.slot)

/-- The open scopes as a stack. -/
def scopeStack (d : Draft) : ScopeStack := d.scopes.map fun s => s.locals.filterMap d.binding?

theorem flatten_scopeStack (d : Draft) : d.scopeStack.flatten = d.opened.filterMap d.binding? := by
  rw [scopeStack, opened, List.filterMap_flatMap, List.flatMap_def]

theorem Stacked.head_binding {i : Nat} (h : d.Stacked (i :: is)) :
    ∃ v, d.declarationAt? i = some v ∧ d.binding? i = some (v.name, v.slot) ∧
      v.slot = is.length := by
  obtain ⟨⟨v, hv, hslot, -⟩, -, -⟩ := h
  exact ⟨v, hv, by rw [binding?, hv, Option.map_some], hslot⟩

/-- Locals that hold the registers from zero on hold them in the order of their declarations. -/
theorem Stacked.slots_eq (h : d.Stacked is) :
    ((is.filterMap d.binding?).reverse.map (·.2)) = List.range is.length := by
  induction is with
  | nil => rfl
  | cons i rest ih =>
    obtain ⟨v, -, hbinding, hslot⟩ := h.head_binding
    rw [List.filterMap_cons_some hbinding, List.reverse_cons, List.map_append, ih h.2.2,
      List.length_cons, List.range_succ, ← hslot]
    rfl

theorem Stacked.length_bindings (h : d.Stacked is) :
    (is.filterMap d.binding?).length = is.length := by
  simpa using congrArg List.length h.slots_eq

/-- Searching the locals for a name and searching their bindings comes to the same. -/
theorem Stacked.find_binding (h : d.Stacked is) (x : String) :
    (is.filterMap d.binding?).find? (·.1 == x) = (d.latest? x is).bind d.binding? := by
  induction is with
  | nil => rfl
  | cons i rest ih =>
    obtain ⟨v, hv, hbinding, -⟩ := h.head_binding
    have hrest := ih h.2.2
    rw [latest?] at hrest ⊢
    rw [List.filterMap_cons_some hbinding, List.find?_cons, List.find?_cons, hv, hrest,
      Option.any_some]
    cases v.name == x
    · rfl
    · exact hbinding.symm

/-- A declaration adds to the innermost scope. -/
theorem scopeStack_declare (h : ∀ i ∈ d.opened, i < d.locals.size) (x : String)
    (slot startPc : Nat) :
    (d.declare x slot startPc).scopeStack = d.scopeStack.modifyHead ((x, slot) :: ·) := by
  have hold : ∀ {s : Scope}, s ∈ d.scopes →
      s.locals.filterMap (d.declare x slot startPc).binding? = s.locals.filterMap d.binding? := by
    intro s hs
    refine List.filterMap_congr fun i hi => ?_
    rw [binding?, binding?, declarationAt?_push (h i (List.mem_flatMap.mpr ⟨s, hs, hi⟩)) rfl]
  have hnew : (d.declare x slot startPc).binding? d.locals.size = some (x, slot) := by
    rw [binding?, declarationAt?, Draft.declare]
    simp [Local.declared]
  rw [scopeStack, scopes_declare, scopeStack]
  cases hscopes : d.scopes with
  | nil => rfl
  | cons s rest =>
    rw [hscopes] at hold
    have htop := hold List.mem_cons_self
    have hrest := List.map_congr_left fun s' hs' => hold (List.mem_cons_of_mem s hs')
    rw [Scope.addLocals, List.map_cons, List.singleton_append, List.filterMap_cons_some hnew, htop,
      hrest]
    rfl

end Draft

/-- No break is pending in a scope. -/
def Scope.Quiet (s : Scope) : Prop := ∀ bs, s.breaks = some bs → bs = []

theorem Scope.raiseBreaks_of_quiet (depth close : Nat) {scopes : List Scope}
    (h : ∀ s ∈ scopes, s.Quiet) : Scope.raiseBreaks depth close scopes = scopes := by
  induction scopes with
  | nil => rfl
  | cons s rest ih =>
    obtain ⟨hs, hrest⟩ := List.forall_mem_cons.mp h
    rw [Scope.raiseBreaks]
    cases hbreaks : s.breaks with
    | none => exact congrArg (s :: ·) (ih hrest)
    | some bs =>
      obtain rfl := hs bs hbreaks
      dsimp only
      rw [List.map_nil, ← hbreaks]

namespace Workspace

/-- The names, scopes and registers of a function are those of a stack of scopes. -/
structure Follows (limit : Nat) (w : Workspace) (S : ScopeStack) : Prop where
  tracks : w.draft.Tracks w.draft.opened
  used : w.used = w.draft.opened.length
  limit : w.draft.registers.limit = limit
  quiet : ∀ s ∈ w.draft.scopes, s.Quiet
  stack : w.draft.scopeStack = S

variable {limit : Nat} {w : Workspace} {S : ScopeStack}

namespace Follows

theorem used_eq (h : w.Follows limit S) : w.used = S.flatten.length := by
  rw [h.used, ← h.stack, Draft.flatten_scopeStack, h.tracks.stacked.length_bindings]

theorem slots (h : w.Follows limit S) : S.slots = List.range w.used := by
  rw [ScopeStack.slots, ← h.stack, Draft.flatten_scopeStack, h.tracks.stacked.slots_eq, h.used]

theorem slotOf? (h : w.Follows limit S) (x : String) : slotOf? x w = .ok (S.slot? x) w := by
  have hreading : w.draft.reading x = w.draft.latest? x w.draft.opened := h.tracks.visible x
  rw [slotOf?_eq, hreading, ScopeStack.slot?, ← h.stack, Draft.flatten_scopeStack,
    h.tracks.stacked.find_binding]
  cases hlatest : w.draft.latest? x w.draft.opened with
  | none => rfl
  | some i =>
    obtain ⟨v, hv, -, -⟩ := h.tracks.stacked.latest?_local hlatest
    have hdecl := Draft.declarationAt?_eq_some hv
    dsimp only
    rw [Option.bind_some, Draft.binding?, hdecl]
    rfl

/-! ## Entering a scope and declaring a local -/

theorem enter (h : w.Follows limit S) (breakable : Bool) :
    ∃ w', openScope breakable w = .ok () w' ∧ w'.Follows limit ([] :: S) := by
  refine ⟨_, rfl, h.tracks.congr rfl fun _ _ => rfl, h.used, h.limit, ?_, ?_⟩
  · refine List.forall_mem_cons.mpr ⟨fun bs hbs => ?_, h.quiet⟩
    cases breakable with
    | false => cases hbs
    | true => exact (Option.some.inj hbs).symm
  · exact congrArg ([] :: ·) h.stack

end Follows

/-- A local is declared in the first register that is not in use. -/
theorem declareLocal_of_lt (x : String) (startPc : Nat) (h : w.used < w.draft.registers.limit) :
    ∃ d : Draft, d = { w.draft with registers := d.registers } ∧
      d.registers.used = w.used + 1 ∧ d.registers.limit = w.draft.registers.limit ∧
      declareLocal x startPc w = .ok w.used { w with draft := d.declare x w.used startPc } := by
  obtain ⟨r, htake, hused, hlimit⟩ : ∃ r, w.draft.registers.take? = some (w.used, r) ∧
      r.used = w.used + 1 ∧ r.limit = w.draft.registers.limit := ⟨_, dif_pos h, rfl, rfl⟩
  refine ⟨{ w.draft with registers := r }, rfl, hused, hlimit, ?_⟩
  rw [declareLocal, takeRegister, bind_assoc, view_bind_run, htake]
  rfl

/-- Where all registers are in use, nothing is declared and nothing else happens. -/
theorem declareLocal_of_le (x : String) (startPc : Nat) (h : w.draft.registers.limit ≤ w.used) :
    declareLocal x startPc w =
      .error (.rejected (.registersExhausted w.draft.registers.limit w.draft.line)) w := by
  have htake : w.draft.registers.take? = none := dif_neg (Nat.not_le.mpr (Nat.lt_succ_of_le h))
  rw [declareLocal, takeRegister, bind_assoc, view_bind_run, htake]
  rfl

theorem Follows.declare (h : w.Follows limit S) (hne : S ≠ []) (x : String) (startPc : Nat)
    (hroom : w.used < limit) :
    ∃ w', declareLocal x startPc w = .ok w.used w' ∧
      w'.Follows limit (S.modifyHead ((x, w.used) :: ·)) := by
  obtain ⟨d, hd, hused, hlimit, hrun⟩ := declareLocal_of_lt x startPc (h.limit ▸ hroom)
  have hscopes : d.scopes = w.draft.scopes := by rw [hd]
  have hopened : d.opened = w.draft.opened := congrArg Scope.allLocals hscopes
  have hsame : ∀ i, d.declarationAt? i = w.draft.declarationAt? i := fun i => by rw [hd]; rfl
  have htracks : d.Tracks d.opened := by
    rw [hopened]
    exact h.tracks.congr (by rw [hd]) fun i _ => hsame i
  have hstack : d.scopeStack = S := by
    rw [← h.stack, Draft.scopeStack, Draft.scopeStack, hscopes]
    exact List.map_congr_left fun s _ => List.filterMap_congr fun i _ => by
      rw [Draft.binding?, Draft.binding?, hsame]
  have hsome : d.scopes ≠ [] := by
    intro hnil
    rw [Draft.scopeStack, hnil] at hstack
    exact hne hstack.symm
  have hopened' := Draft.opened_declare hsome x w.used startPc
  have hcount : w.used = d.opened.length := by rw [h.used, hopened]
  refine ⟨_, hrun, ?_, ?_, hlimit.trans h.limit, ?_, ?_⟩
  · rw [hopened', hcount]
    exact htracks.declare x startPc
  · rw [hopened', List.length_cons, ← hcount]
    exact hused
  · rw [Draft.scopes_declare, hscopes]
    cases hs : w.draft.scopes with
    | nil => exact absurd (hscopes.trans hs) hsome
    | cons s rest =>
      obtain ⟨htop, hrest⟩ := List.forall_mem_cons.mp (hs ▸ h.quiet)
      exact List.forall_mem_cons.mpr ⟨htop, hrest⟩
  · rw [Draft.scopeStack_declare htracks.stacked.lt_size, hstack]

end Workspace

/-! ## Leaving a scope

What `Ensures` promises leaves room for a rejection. Ending locals never rejects
a chunk, so there the promise is kept. -/

/-- A step that never rejects a chunk. -/
def LowerM.Accepts {α : Type} (m : LowerM α) : Prop :=
  ∀ w why w', m w ≠ .error (.rejected why) w'

theorem LowerM.Accepts.bind {β : Type} {f : α → LowerM β} (hm : m.Accepts)
    (hf : ∀ x, (f x).Accepts) : (m >>= f).Accepts := by
  intro w why w' h
  cases hrun : m w with
  | ok x w₁ =>
    rw [bind_of_ok hrun] at h
    exact hf x w₁ why w' h
  | error e w₁ =>
    rw [bind_of_error hrun] at h
    cases h
    exact hm w why w' hrun

theorem Ensures.finishes {w : Workspace} {Q : α → Workspace → Prop} (h : Ensures True m w Q)
    (hm : m.Accepts) : ∃ x w', m w = .ok x w' ∧ Q x w' := by
  cases hrun : m w with
  | ok x w' => exact ⟨x, w', rfl, h.of_ok hrun⟩
  | error e w' =>
    cases e with
    | rejected why => exact absurd hrun (hm w why w')
    | misused how => exact absurd trivial (h.not_misused hrun)

theorem accepts_localAt (i : Nat) : (localAt i).Accepts := by
  intro w why w' h
  rw [localAt, view_bind_run] at h
  cases hv : w.draft.locals[i]? with
  | none =>
    rw [hv] at h
    cases h
  | some v =>
    rw [hv] at h
    cases h

theorem accepts_localsAt (is : List Nat) : (localsAt is).Accepts := by
  induction is with
  | nil =>
    intro w why w' h
    cases h
  | cons i rest ih =>
    refine (accepts_localAt i).bind fun v => ih.bind fun vars w why w' h => ?_
    cases h

theorem accepts_giveBack (f : Registers → Except Misuse Registers) : (giveBack f).Accepts := by
  intro w why w' h
  rw [giveBack, view_bind_run] at h
  cases hf : f w.draft.registers with
  | ok r =>
    rw [hf] at h
    cases h
  | error how =>
    rw [hf] at h
    cases h

theorem accepts_endLocals (endPc : Nat) (is : List Nat) : (endLocals endPc is).Accepts := by
  induction is with
  | nil =>
    intro w why w' h
    cases h
  | cons i rest ih =>
    refine LowerM.Accepts.bind (m := endLocal endPc i) ?_ fun _ => ih
    refine (accepts_localAt i).bind fun v => LowerM.Accepts.bind ?_ fun _ => accepts_giveBack _
    intro w why w' h
    cases h

/-- Locals that changed in their ends only are declared as they were. -/
theorem Draft.declarationAt?_of_entry {d d' : Draft} {ends : Local → Nat}
    (hsize : d'.locals.size = d.locals.size)
    (hentry : ∀ (i : Nat) (v : Local), d.locals[i]? = some v →
      d'.locals[i]? = some (if i ∈ is then { v with endPc := ends v } else v)) (i : Nat) :
    d'.declarationAt? i = d.declarationAt? i := by
  rw [declarationAt?, declarationAt?]
  cases hv : d.locals[i]? with
  | none =>
    have hle := Array.getElem?_eq_none_iff.mp hv
    rw [Array.getElem?_eq_none_iff.mpr (hsize ▸ hle)]
  | some v =>
    rw [hentry i v hv]
    split <;> rfl

namespace Workspace

variable {limit : Nat} {w : Workspace} {S : ScopeStack}

/-- A scope in which no break is pending is left by ending its locals. -/
theorem closeScope_of_quiet (endPc : Nat) {s : Scope} {outer : List Scope}
    (hscopes : w.draft.scopes = s :: outer) (hquiet : ∀ s ∈ w.draft.scopes, s.Quiet)
    (hlocals : ∀ i ∈ s.locals, i < w.draft.locals.size) {w₁ : Workspace}
    (hend : endLocals endPc s.locals { w with draft := { w.draft with scopes := outer } } =
      .ok () w₁) :
    ∃ w₂, closeScope endPc w = .ok () w₂ ∧ w₂.draft = w₁.draft := by
  obtain ⟨hs, houter⟩ := List.forall_mem_cons.mp (hscopes ▸ hquiet)
  have hread : Ensures True (localsAt s.locals) w fun _ w' => w' = w :=
    (localsAt_spec hlocals).mono fun _ _ h => h.1
  obtain ⟨vars, w', hvars, hsame⟩ := hread.finishes (accepts_localsAt s.locals)
  have hlevel : closeLevel w = .ok (closeLevelOf vars) w := by
    rw [closeLevel, view_bind_run, hscopes]
    rw [hsame] at hvars
    exact bind_of_ok hvars
  let left := Event.scopeClosed (outer.length + 1) endPc
  have hrest : (do endLocals endPc s.locals; record left : LowerM Unit)
      { w with draft := { w.draft with scopes := outer } } =
        .ok () { w₁ with events := w₁.events.push left } := bind_of_ok hend
  refine ⟨{ w₁ with events := w₁.events.push left }, ?_, rfl⟩
  rw [closeScope, bind_of_ok hlevel, view_bind_run, hscopes]
  cases hbreaks : s.breaks with
  | none =>
    dsimp only
    rw [hbreaks, Scope.raiseBreaks_of_quiet _ _ houter]
    exact hrest
  | some bs =>
    obtain rfl := hs bs hbreaks
    dsimp only
    rw [hbreaks]
    exact hrest

theorem Follows.exit {top : List (String × Nat)} (h : w.Follows limit (top :: S)) (endPc : Nat) :
    ∃ w', closeScope endPc w = .ok () w' ∧ w'.Follows limit S := by
  obtain ⟨s, outer, hscopes, -, houter⟩ := List.map_eq_cons_iff.mp h.stack
  have hopened : w.draft.opened = s.locals ++ Scope.allLocals outer := by
    rw [Draft.opened, hscopes, List.flatMap_cons]
    rfl
  have hlocals : ∀ i ∈ s.locals, i < w.draft.locals.size := fun i hi =>
    h.tracks.stacked.lt_size i (hopened ▸ List.mem_append_left _ hi)
  have htaken : w.draft.Tracks (s.locals ++ Scope.allLocals outer) := hopened ▸ h.tracks
  have hends : Ensures True (endLocals endPc s.locals)
      { w with draft := { w.draft with scopes := outer } } _ :=
    endLocals_spec endPc (htaken.congr rfl fun _ _ => rfl) (hopened ▸ h.used)
  obtain ⟨_, w₁, hend, d, rfl, hd, htracks, hsize, hentry⟩ :=
    hends.finishes (accepts_endLocals endPc s.locals)
  obtain ⟨w₂, hclose, hdraft⟩ := closeScope_of_quiet endPc hscopes h.quiet hlocals hend
  have hscopes' : w₂.draft.scopes = outer := by rw [hdraft, hd]
  have hopened' : w₂.draft.opened = Scope.allLocals outer := congrArg Scope.allLocals hscopes'
  have hsame : ∀ i, w₂.draft.declarationAt? i = w.draft.declarationAt? i := fun i => by
    rw [hdraft]
    exact Draft.declarationAt?_of_entry hsize hentry i
  refine ⟨w₂, hclose, ?_, ?_, ?_, ?_, ?_⟩
  · rw [hopened', hdraft]
    exact htracks
  · rw [hopened', Workspace.used, hdraft, hd]
  · rw [hdraft, hd]
    exact h.limit
  · rw [hscopes']
    exact (List.forall_mem_cons.mp (hscopes ▸ h.quiet)).2
  · rw [← houter, Draft.scopeStack, hscopes']
    exact List.map_congr_left fun t _ => List.filterMap_congr fun i _ => by
      rw [Draft.binding?, Draft.binding?, hsame]

/-! ## Runs of steps -/

/-- A function of which nothing has been written but its outermost scope. -/
structure Begun (w : Workspace) : Prop where
  scopes : w.draft.scopes = [{}]
  visible : w.draft.visible = []
  used : w.used = 0

theorem Begun.follows (h : w.Begun) : w.Follows w.draft.registers.limit [[]] := by
  have hopened : w.draft.opened = [] := by rw [Draft.opened, h.scopes]; rfl
  refine ⟨⟨?_, fun x => ?_⟩, ?_, rfl, ?_, ?_⟩
  · rw [hopened]
    trivial
  · rw [hopened, h.visible]
    rfl
  · rw [hopened, h.used]
    rfl
  · rw [h.scopes]
    exact List.forall_mem_singleton.mpr fun bs hbs => by cases hbs
  · rw [Draft.scopeStack, h.scopes]
    rfl

/-- A function has the names and registers of a stack of scopes, and what is done to it next
has the outcome that it should. -/
structure Stands (w : Workspace) (S : ScopeStack) : Prop where
  stack : w.draft.scopeStack = S
  lookup : ∀ x, slotOf? x w = .ok (S.slot? x) w
  slots : S.slots = List.range w.used
  enter : ∀ breakable, ∃ w', openScope breakable w = .ok () w'
  declare : ∀ x startPc, w.used < w.draft.registers.limit →
    ∃ w', declareLocal x startPc w = .ok w.used w'
  refuse : ∀ x startPc, w.draft.registers.limit ≤ w.used → declareLocal x startPc w =
    .error (.rejected (.registersExhausted w.draft.registers.limit w.draft.line)) w
  exit : ∀ endPc, 1 < S.length → ∃ w', closeScope endPc w = .ok () w'

theorem Follows.stands (h : w.Follows limit S) (hne : S ≠ []) : w.Stands S where
  stack := h.stack
  lookup := h.slotOf?
  slots := h.slots
  enter breakable := ⟨_, rfl⟩
  declare x startPc hroom := by
    obtain ⟨w', hrun, -⟩ := h.declare hne x startPc (h.limit ▸ hroom)
    exact ⟨w', hrun⟩
  refuse x startPc hfull := declareLocal_of_le x startPc hfull
  exit endPc hlen := by
    cases S with
    | nil => exact absurd rfl hne
    | cons top rest =>
      obtain ⟨w', hrun, -⟩ := h.exit endPc
      exact ⟨w', hrun⟩

/-- A step does to a function what it does to the stack. -/
theorem Follows.step (h : w.Follows limit S) (hne : S ≠ []) (step : ScopeStep) :
    (step.apply w).Follows limit (S.apply limit step) := by
  cases step with
  | enter breakable =>
    obtain ⟨w', hrun, hnext⟩ := h.enter breakable
    rw [ScopeStep.apply, stateAfter_of_ok hrun]
    exact hnext
  | declare x startPc =>
    rw [ScopeStep.apply, stateAfter, ScopeStack.apply, ← h.used_eq]
    by_cases hroom : w.used < limit
    · obtain ⟨w', hrun, hnext⟩ := h.declare hne x startPc hroom
      rw [hrun, if_pos hroom]
      exact hnext
    · have hfull : w.draft.registers.limit ≤ w.used := h.limit ▸ Nat.le_of_not_lt hroom
      rw [declareLocal_of_le x startPc hfull, if_neg hroom]
      exact h
  | exit endPc =>
    cases S with
    | nil => exact absurd rfl hne
    | cons top rest =>
      obtain ⟨w', hrun, hnext⟩ := h.exit endPc
      rw [ScopeStep.apply, stateAfter_of_ok hrun]
      exact hnext

/-- So do steps in a row, as long as the outermost scope stays open. -/
theorem Follows.run {inner : Nat} {steps : List ScopeStep} (h : w.Follows limit S)
    (hlen : S.length = inner + 1) (hroot : ScopeStep.keepRoot inner steps = true) :
    (steps.foldl ScopeStep.apply w).Follows limit (steps.foldl (ScopeStack.apply limit) S) ∧
      steps.foldl (ScopeStack.apply limit) S ≠ [] := by
  have hne : S ≠ [] := List.ne_nil_of_length_eq_add_one hlen
  induction steps generalizing w S inner with
  | nil => exact ⟨h, hne⟩
  | cons step rest ih =>
    have hnext := h.step hne step
    cases step with
    | enter breakable =>
      refine ih hnext ?_ hroot (List.cons_ne_nil _ _)
      rw [ScopeStack.apply, List.length_cons, hlen]
    | declare x startPc =>
      have hkeeps : (S.apply limit (.declare x startPc)).length = inner + 1 := by
        rw [ScopeStack.apply]
        split
        · rw [List.length_modifyHead, hlen]
        · exact hlen
      exact ih hnext hkeeps hroot (List.ne_nil_of_length_eq_add_one hkeeps)
    | exit endPc =>
      cases inner with
      | zero => cases hroot
      | succ inner =>
        have hkeeps : (S.apply limit (.exit endPc)).length = inner + 1 := by
          rw [ScopeStack.apply, List.length_tail, hlen]
          rfl
        exact ih hnext hkeeps hroot (List.ne_nil_of_length_eq_add_one hkeeps)

/-- Whatever scopes are entered and left and whatever locals are declared, names and registers
are those of the stack of scopes that the same steps build: a name stands for the register of
its latest declaration in a scope that is still open, and the locals of these scopes hold the
registers in use from zero on. A local for which no register is left is refused, and nothing
changes. -/
theorem names_follow_scopes (h : w.Begun) (steps : List ScopeStep)
    (hroot : ScopeStep.keepRoot 0 steps = true) :
    (steps.foldl ScopeStep.apply w).Stands
      (steps.foldl (ScopeStack.apply w.draft.registers.limit) [[]]) := by
  obtain ⟨hfollows, hne⟩ := h.follows.run rfl hroot
  exact hfollows.stands hne

/-- A name that is declared twice in one scope and once more in an inner one, in a frame of
three registers, so that the last declaration is refused. -/
theorem names_follow_scopes_of_shadowing :
    let w := Workspace.fresh { registerLimit := 3 }
    let steps := [.declare "x" 0, .declare "x" 1, .enter true, .declare "x" 2, .declare "y" 3,
      .exit 5]
    w.Begun ∧ ScopeStep.keepRoot 0 steps = true ∧
      (steps.foldl ScopeStep.apply w).Stands [[("x", 1), ("x", 0)]] :=
  ⟨⟨rfl, rfl, rfl⟩, by decide, names_follow_scopes ⟨rfl, rfl, rfl⟩ _ (by decide)⟩

end Workspace

end LuaLowering
