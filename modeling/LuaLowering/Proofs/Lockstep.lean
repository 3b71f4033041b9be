import LuaLowering.Proofs.Representation

/-!
# Two compilations in step

A chunk is compiled twice, under options that differ in the limit of registers and in
what is left out of the finished functions. Neither decides what code is written: the
two runs take the same steps and hold the same drafts, but for the limit itself and
the form of the functions already finished.

They part company only where the lower limit is hit. From there on the other run is on
its own, and all that is said of it is that it now has a function that does not fit the
lower limit. It keeps that to the end, for frames never shrink.
-/

namespace LuaLowering

open LowerM

variable {limit : Nat} {d : Draft} {w w₁ w₂ inner : Workspace} {R : Pairing}
  {f : Registers → Except Misuse Registers} {e₁ e₂ : List Draft} {write : LowerM Unit} {e : Stop}
  {b : Block} {o : Options}

/-! ## The two runs -/

/-- A function with other registers and other functions inside. -/
def Draft.reframe (d : Draft) (registers : Registers) (nested : Array Prototype) : Draft :=
  { d with registers, nested }

/-- Two sets of options for one chunk, and how the functions that the first leads to
look under the second. -/
structure Pairing where
  low : Options
  high : Options
  image : Prototype → Prototype
  constantLimit : high.constantLimit = low.constantLimit
  limit : low.registerLimit ≤ high.registerLimit
  finish : ∀ (d : Draft) (r : Registers), r.peak = d.registers.peak →
    (d.reframe r (d.nested.map image)).finish high = image (d.finish low)

/-- A function has a frame larger than a limit, or one inside it has. -/
def Prototype.Exceeds (limit : Nat) (p : Prototype) : Prop :=
  ∃ q ∈ p.family, limit < q.maxStackSize.toNat

theorem Prototype.mem_families {ps : List Prototype} {p q : Prototype} (hp : p ∈ ps)
    (hq : q ∈ p.family) : q ∈ Prototype.families ps := by
  induction ps with
  | nil => cases hp
  | cons p' rest ih =>
    rw [Prototype.families, List.mem_append]
    rcases List.mem_cons.mp hp with rfl | hp
    · exact Or.inl hq
    · exact Or.inr (ih hp)

/-- A function under construction has taken more registers than a limit, or one
finished inside it has a larger frame. -/
def Draft.Exceeds (limit : Nat) (d : Draft) : Prop :=
  limit < d.registers.peak ∨ ∃ p ∈ d.nested, p.Exceeds limit

/-- One of the functions under construction does not fit a limit. -/
def Workspace.Exceeds (limit : Nat) (w : Workspace) : Prop := ∃ d ∈ w.stack, d.Exceeds limit

theorem Draft.Exceeds.evolves {d' : Draft} (h : d.Exceeds limit) (he : d.Evolves d') :
    d'.Exceeds limit := by
  rcases h with h | ⟨p, hp, h⟩
  · exact Or.inl (Nat.lt_of_lt_of_le h he.peak)
  · exact Or.inr ⟨p, he.nested.mem hp, h⟩

theorem exists_exceeds_of_forall₂ {ds ds' : List Draft} (he : List.Forall₂ Draft.Evolves ds ds')
    (h : ∃ d ∈ ds, d.Exceeds limit) : ∃ d' ∈ ds', d'.Exceeds limit := by
  induction he with
  | nil => exact h
  | cons hd _ ih =>
    obtain ⟨d, hmem, h⟩ := h
    rcases List.mem_cons.mp hmem with rfl | hmem
    · exact ⟨_, List.mem_cons_self, h.evolves hd⟩
    · obtain ⟨d', hd', h'⟩ := ih ⟨d, hmem, h⟩
      exact ⟨d', List.mem_cons_of_mem _ hd', h'⟩

theorem Workspace.Exceeds.evolves {w' : Workspace} (h : w.Exceeds limit) (he : w.Evolves w') :
    w'.Exceeds limit := exists_exceeds_of_forall₂ he.stack h

/-- A finished function has the frame that its draft took, if that fits in its field. -/
theorem Draft.Exceeds.finish (h : d.Exceeds limit) (hfits : d.registers.peak ≤ frameRegisters)
    (o : Options) : (d.finish o).Exceeds limit := by
  rcases h with h | ⟨p, hp, q, hq, h⟩
  · refine ⟨d.finish o, by rw [Draft.finish, Prototype.family]; exact List.mem_cons_self, ?_⟩
    have hsize : max d.registers.peak 2 < 256 := by
      unfold frameRegisters at hfits
      omega
    show limit < (UInt8.ofNat (max d.registers.peak 2)).toNat
    rw [UInt8.toNat_ofNat_of_lt' hsize]
    omega
  · refine ⟨q, ?_, h⟩
    rw [Draft.finish, Prototype.family]
    exact List.mem_cons_of_mem _ (Prototype.mem_families (Array.mem_toList_iff.mpr hp) hq)

namespace Pairing

/-- The drafts of one function in the two runs. -/
structure Drafts (R : Pairing) (d₁ d₂ : Draft) : Prop where
  eq : d₂ = d₁.reframe d₂.registers (d₁.nested.map R.image)
  low : d₁.registers.limit = R.low.registerLimit
  high : d₂.registers.limit = R.high.registerLimit
  used : d₂.registers.used = d₁.registers.used
  peak : d₂.registers.peak = d₁.registers.peak

namespace Drafts

variable {R : Pairing} {d₁ d₂ : Draft}

/-- What has to do neither with the registers nor with the functions inside is the same
in both. -/
theorem view_eq {α : Type} {g : Draft → α} (h : R.Drafts d₁ d₂)
    (hg : ∀ (d : Draft) r nested, g (d.reframe r nested) = g d) : g d₂ = g d₁ := by
  rw [h.eq, hg]

/-- It may change in both alike. -/
theorem update (h : R.Drafts d₁ d₂) (g : Draft → Draft)
    (hg : ∀ (d : Draft) r nested, g (d.reframe r nested) = (g d).reframe r nested) :
    R.Drafts (g d₁) (g d₂) := by
  have hsame : ∀ d : Draft, g d = (g d).reframe d.registers d.nested := fun d =>
    hg d d.registers d.nested
  have hregisters : ∀ d : Draft, (g d).registers = d.registers := fun d =>
    (congrArg Draft.registers (hsame d) :)
  have hnested : (g d₁).nested = d₁.nested := (congrArg Draft.nested (hsame d₁) :)
  refine ⟨?_, ?_, ?_, ?_, ?_⟩ <;> rw [hregisters]
  · rw [hnested, ← hg, ← h.eq]
  · exact h.low
  · exact h.high
  · rw [hregisters, h.used]
  · rw [hregisters, h.peak]

/-- So may the registers. -/
theorem setRegisters (h : R.Drafts d₁ d₂) {r₁ r₂ : Registers}
    (hlow : r₁.limit = d₁.registers.limit) (hhigh : r₂.limit = d₂.registers.limit)
    (hused : r₂.used = r₁.used) (hpeak : r₂.peak = r₁.peak) :
    R.Drafts { d₁ with registers := r₁ } { d₂ with registers := r₂ } := by
  refine ⟨?_, hlow.trans h.low, hhigh.trans h.high, hused, hpeak⟩
  rw [h.eq]
  rfl

/-- A function may be finished inside both. -/
theorem pushNested (h : R.Drafts d₁ d₂) (p : Prototype) :
    R.Drafts { d₁ with nested := d₁.nested.push p }
      { d₂ with nested := d₂.nested.push (R.image p) } := by
  refine ⟨?_, h.low, h.high, h.used, h.peak⟩
  rw [Array.map_push, h.eq]
  rfl

theorem finish (h : R.Drafts d₁ d₂) : d₂.finish R.high = R.image (d₁.finish R.low) := by
  rw [h.eq]
  exact R.finish d₁ _ h.peak

theorem fresh (R : Pairing) : R.Drafts (.fresh R.low) (.fresh R.high) := by
  refine ⟨?_, rfl, rfl, rfl, rfl⟩
  show _ = (Draft.fresh R.low).reframe _ (#[].map R.image)
  rw [Array.map_empty]
  rfl

end Drafts

/-- The workspaces of the two runs after the same steps. -/
structure Workspaces (R : Pairing) (w₁ w₂ : Workspace) : Prop where
  low : w₁.options = R.low
  high : w₂.options = R.high
  stack : List.Forall₂ R.Drafts w₁.stack w₂.stack

theorem Workspaces.draft (h : R.Workspaces w₁ w₂) :
    R.Drafts w₁.draft w₂.draft := (List.forall₂_cons.mp h.stack).1

theorem Workspaces.enclosing (h : R.Workspaces w₁ w₂) :
    List.Forall₂ R.Drafts w₁.enclosing w₂.enclosing := (List.forall₂_cons.mp h.stack).2

/-- A step ended in the same way in both runs. -/
inductive Agree {α : Type} (R : Pairing) (r₁ r₂ : EStateM.Result Stop Workspace α) : Prop
  | ok (x : α) {w₁ w₂ : Workspace} (h₁ : r₁ = .ok x w₁) (h₂ : r₂ = .ok x w₂)
      (hw : R.Workspaces w₁ w₂)
  | error (e : Stop) {w₁ w₂ : Workspace} (h₁ : r₁ = .error e w₁) (h₂ : r₂ = .error e w₂)

/-- The lower limit stopped a step. If the other run got past it, then with more
registers. -/
structure Parted {α : Type} (R : Pairing) (r₁ r₂ : EStateM.Result Stop Workspace α) : Prop where
  limit : R.low.registerLimit < R.high.registerLimit
  stopped : ∃ limit line w, r₁ = .error (.rejected (.registersExhausted limit line)) w
  exceeds : R.high.registerLimit ≤ frameRegisters →
    ∀ x w, r₂ = .ok x w → w.Exceeds R.low.registerLimit

end Pairing

/-- A step does the same in both runs. -/
def Alike (R : Pairing) {α : Type} (m : LowerM α) : Prop :=
  ∀ w₁ w₂ : Workspace, R.Workspaces w₁ w₂ → R.Agree (m w₁) (m w₂)

/-- A step keeps two runs together or stops the first, and lets functions evolve. -/
structure Lockstep (R : Pairing) (α : Type) (m : LowerM α) : Prop where
  runs : ∀ w₁ w₂ : Workspace, R.Workspaces w₁ w₂ →
    R.Agree (m w₁) (m w₂) ∨ R.Parted (m w₁) (m w₂)
  evolving : Evolving α m

section

variable {R : Pairing} {α β : Type} {m : LowerM α} {f : α → LowerM β} {w w' : Workspace}

theorem Alike.bind (h : Alike R m) (hf : ∀ x, Alike R (f x)) : Alike R (m >>= f) := by
  intro w₁ w₂ hw
  cases h w₁ w₂ hw with
  | ok x h₁ h₂ hw' =>
    rw [bind_of_ok h₁, bind_of_ok h₂]
    exact hf x _ _ hw'
  | error e h₁ h₂ => exact .error e (bind_of_error h₁) (bind_of_error h₂)

theorem alike_pure (x : α) : Alike R (pure x : LowerM α) := fun _ _ hw => .ok x rfl rfl hw

theorem alike_reject (why : Rejection) : Alike R (reject why : LowerM α) :=
  fun _ _ _ => .error _ rfl rfl

theorem alike_misuse (how : Misuse) : Alike R (misuse how : LowerM α) :=
  fun _ _ _ => .error _ rfl rfl

theorem alike_record (e : Event) : Alike R (record e) :=
  fun _ _ hw => .ok () rfl rfl ⟨hw.low, hw.high, hw.stack⟩

theorem alike_view {g : Draft → α} (hg : ∀ (d : Draft) r nested, g (d.reframe r nested) = g d) :
    Alike R (view g) := by
  intro w₁ w₂ hw
  refine .ok (g w₁.draft) rfl ?_ hw
  rw [← hw.draft.view_eq hg]
  rfl

theorem alike_update {g : Draft → Draft}
    (hg : ∀ (d : Draft) r nested, g (d.reframe r nested) = (g d).reframe r nested) :
    Alike R (update g) :=
  fun _ _ hw => .ok () rfl rfl ⟨hw.low, hw.high, .cons (hw.draft.update g hg) hw.enclosing⟩

theorem Alike.lockstep (h : Alike R m) (he : Evolving α m) : Lockstep R α m :=
  ⟨fun w₁ w₂ hw => Or.inl (h w₁ w₂ hw), he⟩

/-- What comes second may rely on what the first step did for functions to evolve. -/
theorem lockstep_bind_of_ok (h : Lockstep R α m)
    (hruns : ∀ (x : α) (w₁ w₂ : Workspace), R.Workspaces w₁ w₂ →
      R.Agree (f x w₁) (f x w₂) ∨ R.Parted (f x w₁) (f x w₂))
    (hf : ∀ {x : α} {w w' : Workspace}, m w = .ok x w' → EvolvesFrom (f x) w') :
    Lockstep R β (m >>= f) := by
  refine ⟨fun w₁ w₂ hw => ?_, fun w => (h.evolving w).bind fun _ _ hrun => hf hrun⟩
  rcases h.runs w₁ w₂ hw with hagree | hparted
  · cases hagree with
    | ok x h₁ h₂ hw' =>
      rw [bind_of_ok h₁, bind_of_ok h₂]
      exact hruns x _ _ hw'
    | error e h₁ h₂ => exact Or.inl (.error e (bind_of_error h₁) (bind_of_error h₂))
  · obtain ⟨limit, line, w₁', h₁⟩ := hparted.stopped
    refine Or.inr ⟨hparted.limit, ⟨limit, line, w₁', bind_of_error h₁⟩, fun hfits y w₂'' hrun => ?_⟩
    -- the other run goes on, with a function that has become too large
    cases h₂ : m w₂ with
    | ok x w₂' =>
      rw [bind_of_ok h₂] at hrun
      exact (hparted.exceeds hfits x w₂' h₂).evolves ((hf h₂).of_ok hrun)
    | error e w₂' =>
      rw [bind_of_error h₂] at hrun
      cases hrun

theorem lockstep_bind (h : Lockstep R α m) (hf : ∀ x, Lockstep R β (f x)) :
    Lockstep R β (m >>= f) :=
  lockstep_bind_of_ok h (fun x => (hf x).runs) fun {x _ w'} _ => (hf x).evolving w'

end

/-! ## The steps of the builder -/

section

variable {R : Pairing}

/-! ### Registers -/

/-- The two ways that taking registers can end. -/
theorem Registers.takeRun?_cases (r : Registers) (n : Nat) :
    (∃ r', r.takeRun? n = some (r.used, r') ∧ r.used + n ≤ r.limit ∧ r'.limit = r.limit ∧
      r'.used = r.used + n ∧ r'.peak = max r.peak (r.used + n)) ∨
    (r.limit < r.used + n ∧ r.takeRun? n = none) := by
  unfold Registers.takeRun?
  split
  · next h => exact Or.inl ⟨_, rfl, h, rfl, rfl, rfl⟩
  · next h => exact Or.inr ⟨Nat.lt_of_not_le h, rfl⟩

theorem keepTaken_some (first : Nat) (r : Registers) (w : Workspace) :
    keepTaken (some (first, r)) w =
      .ok first { w with draft := { w.draft with registers := r } } := rfl

theorem keepTaken_none (w : Workspace) : keepTaken none w =
    .error (.rejected (.registersExhausted w.draft.registers.limit w.draft.line)) w := rfl

/-- Taking registers tells the two runs apart only where the lower limit is hit. -/
theorem keepTaken_runs (n : Nat) (hw : R.Workspaces w₁ w₂) :
    R.Agree (keepTaken (w₁.draft.registers.takeRun? n) w₁)
        (keepTaken (w₂.draft.registers.takeRun? n) w₂) ∨
      R.Parted (keepTaken (w₁.draft.registers.takeRun? n) w₁)
        (keepTaken (w₂.draft.registers.takeRun? n) w₂) := by
  have hlimit := R.limit
  have hlow := hw.draft.low
  have hhigh := hw.draft.high
  have hused := hw.draft.used
  rcases w₁.draft.registers.takeRun?_cases n with
      ⟨r₁, htake₁, hroom₁, hl₁, hu₁, hp₁⟩ | ⟨hfull₁, htake₁⟩ <;>
    rcases w₂.draft.registers.takeRun?_cases n with
      ⟨r₂, htake₂, hroom₂, hl₂, hu₂, hp₂⟩ | ⟨hfull₂, htake₂⟩ <;>
    rw [htake₁, htake₂]
  · rw [keepTaken_some, keepTaken_some, hused]
    refine Or.inl (.ok _ rfl rfl ⟨hw.low, hw.high,
      .cons (hw.draft.setRegisters hl₁ hl₂ ?_ ?_) hw.enclosing⟩)
    · rw [hu₁, hu₂, hused]
    · rw [hp₁, hp₂, hused, hw.draft.peak]
  · omega
  · refine Or.inr ⟨by omega, ⟨_, _, _, keepTaken_none w₁⟩, fun _ x w₂' hrun => ?_⟩
    cases hrun
    exact ⟨_, List.mem_cons_self, Or.inl (show _ < r₂.peak by omega)⟩
  · rcases Nat.eq_or_lt_of_le hlimit with heq | hlt
    · have hline : w₂.draft.line = w₁.draft.line := hw.draft.view_eq fun _ _ _ => rfl
      rw [keepTaken_none, keepTaken_none, hhigh, hlow, heq, hline]
      exact Or.inl (.error _ rfl rfl)
    · exact Or.inr ⟨hlt, ⟨_, _, _, keepTaken_none w₁⟩, nofun⟩

theorem takeRegister_lockstep : Lockstep R Nat takeRegister :=
  ⟨fun _ _ hw => keepTaken_runs 1 hw, takeRegister_evolving⟩

theorem takeRegisters_run (n : Nat) (w : Workspace) : takeRegisters n w =
    if Word.fits (w.draft.registers.used + n) then keepTaken (w.draft.registers.takeRun? n) w
    else .error (.misused (.pastWord (w.draft.registers.used + n))) w := by
  rw [takeRegisters, view_bind_run, Registers.takeRun]
  by_cases hfits : Word.fits (w.draft.registers.used + n)
  · rw [if_pos hfits, if_pos hfits]
  · rw [if_neg hfits, if_neg hfits]
    rfl

theorem takeRegisters_lockstep (n : Nat) : Lockstep R Nat (takeRegisters n) := by
  refine ⟨fun w₁ w₂ hw => ?_, takeRegisters_evolving n⟩
  rw [takeRegisters_run, takeRegisters_run, hw.draft.used]
  split
  · exact keepTaken_runs n hw
  · exact Or.inl (.error _ rfl rfl)

theorem usedRegisters_alike : Alike R usedRegisters := by
  intro w₁ w₂ hw
  refine .ok w₁.draft.registers.used rfl ?_ hw
  rw [← hw.draft.used]
  rfl

theorem giveBack_alike (hf : GivesBack f) : Alike R (giveBack f) := by
  intro w₁ w₂ hw
  rcases hf w₁.draft.registers.used with ⟨m, hrun⟩ | ⟨left, -, hrun⟩ <;>
    rw [giveBack, view_bind_run, view_bind_run, hrun _ rfl, hrun _ hw.draft.used]
  · exact .error _ rfl rfl
  · exact .ok () rfl rfl
      ⟨hw.low, hw.high, .cons (hw.draft.setRegisters rfl rfl rfl hw.draft.peak) hw.enclosing⟩

theorem giveBack_lockstep (hf : GivesBack f) :
    Lockstep R Unit (giveBack f) := (giveBack_alike hf).lockstep (giveBack_evolving hf)

/-! ### Code -/

theorem here_alike : Alike R here := alike_view fun _ _ _ => rfl

theorem currentLine_alike : Alike R currentLine := alike_view fun _ _ _ => rfl

theorem emit_alike (line : Nat) (i : Instruction) : Alike R (emit line i) :=
  here_alike.bind fun pc => (alike_update fun _ _ _ => rfl).bind fun _ => alike_pure pc

theorem setInstruction_alike (pc : Nat) (i : Instruction) : Alike R (setInstruction pc i) := by
  refine here_alike.bind fun size => ?_
  split
  · exact alike_update fun _ _ _ => rfl
  · exact alike_misuse _

theorem offsetBetween_alike (origin target : Nat) : Alike R (offsetBetween origin target) := by
  refine (alike_view fun _ _ _ => rfl).bind fun offset => ?_
  split
  · exact alike_pure offset
  · refine here_alike.bind fun pc => ?_
    split
    · exact currentLine_alike.bind fun _ => alike_reject _
    · exact alike_misuse _

theorem aimJump_alike (pc target : Nat) : Alike R (aimJump pc target) := by
  refine (offsetBetween_alike pc target).bind fun offset =>
    (alike_view fun _ _ _ => rfl).bind fun i => ?_
  cases i with
  | some i => exact (setInstruction_alike pc _).bind fun _ => alike_record _
  | none => exact alike_misuse _

theorem constantIndex_alike (k : Constant) : Alike R (constantIndex k) := by
  refine (alike_view fun _ _ _ => rfl).bind fun i => ?_
  cases i with
  | some i => exact alike_pure i
  | none =>
    exact (alike_view fun _ _ _ => rfl).bind fun i =>
      (alike_update fun _ _ _ => rfl).bind fun _ => alike_pure i

/-! ### Locals and scopes -/

theorem declareLocal_lockstep (x : String) (startPc : Nat) :
    Lockstep R Nat (declareLocal x startPc) := by
  refine lockstep_bind_of_ok takeRegister_lockstep (fun slot w₁ w₂ hw => Or.inl ?_)
    fun hrun => declare_evolves hrun x startPc
  exact ((alike_update fun _ _ _ => rfl).bind fun _ => alike_pure slot) w₁ w₂ hw

theorem localAt_alike (i : Nat) : Alike R (localAt i) := by
  refine (alike_view fun _ _ _ => rfl).bind fun v => ?_
  cases v with
  | some v => exact alike_pure v
  | none => exact alike_misuse _

theorem slotOf?_alike (x : String) : Alike R (slotOf? x) := by
  refine (alike_view fun _ _ _ => rfl).bind fun i => ?_
  cases i with
  | some i => exact (localAt_alike i).bind fun _ => alike_pure _
  | none => exact alike_pure none

theorem declaredCount_alike : Alike R declaredCount := alike_view fun _ _ _ => rfl

theorem prolongLocals_alike (first past delta : Nat) :
    Alike R (prolongLocals first past delta) := by
  refine declaredCount_alike.bind fun count => ?_
  split
  · exact alike_update fun _ _ _ => rfl
  · exact alike_misuse _

theorem openScope_alike (breakable : Bool) : Alike R (openScope breakable) :=
  (alike_update fun _ _ _ => rfl).bind fun _ =>
    (alike_view fun _ _ _ => rfl).bind fun _ => alike_record _

theorem addBreak_alike (pc line : Nat) : Alike R (addBreak pc line) := by
  refine (alike_view fun _ _ _ => rfl).bind fun scopes => ?_
  split
  · exact alike_update fun _ _ _ => rfl
  · exact alike_reject _

theorem localsAt_alike (is : List Nat) : Alike R (localsAt is) := by
  induction is with
  | nil => exact alike_pure []
  | cons i rest ih => exact (localAt_alike i).bind fun v => ih.bind fun vars => alike_pure _

theorem closeLevel_alike : Alike R closeLevel := by
  refine (alike_view fun _ _ _ => rfl).bind fun scopes => ?_
  cases scopes with
  | nil => exact alike_pure 0
  | cons s rest => exact (localsAt_alike s.locals).bind fun _ => alike_pure _

theorem patchBreaks_alike (close target : Nat) (breaks : List OpenBreak) :
    Alike R (patchBreaks close target breaks) := by
  induction breaks with
  | nil => exact alike_pure ()
  | cons b rest ih =>
    refine Alike.bind ?_ fun _ => ih
    exact (offsetBetween_alike b.pc target).bind fun _ =>
      (setInstruction_alike b.pc _).bind fun _ => alike_record _

theorem endLocals_alike (endPc : Nat) (is : List Nat) : Alike R (endLocals endPc is) := by
  induction is with
  | nil => exact alike_pure ()
  | cons i rest ih =>
    refine Alike.bind ((localAt_alike i).bind fun v => ?_) fun _ => ih
    exact (alike_update fun _ _ _ => rfl).bind fun _ => giveBack_alike (givesBack_release v.slot)

theorem closeScope_alike (endPc : Nat) : Alike R (closeScope endPc) := by
  refine closeLevel_alike.bind fun close => (alike_view fun _ _ _ => rfl).bind fun scopes => ?_
  cases scopes with
  | nil => exact alike_pure ()
  | cons scope outer =>
    have hrest : Alike R (do
        endLocals endPc scope.locals
        record (.scopeClosed (outer.length + 1) endPc)) :=
      (endLocals_alike endPc scope.locals).bind fun _ => alike_record _
    dsimp only
    cases scope.breaks with
    | some breaks =>
      exact (alike_update fun _ _ _ => rfl).bind fun _ => here_alike.bind fun target =>
        (patchBreaks_alike close target _).bind fun _ => hrest
    | none => exact (alike_update fun _ _ _ => rfl).bind fun _ => hrest

/-! ### Outer variables and nested functions -/

/-- The search for an outer variable in the two runs. -/
structure Pairing.Resolutions (R : Pairing) (r₁ r₂ : Resolution) : Prop where
  index : r₂.index = r₁.index
  draft : R.Drafts r₁.draft r₂.draft
  enclosing : List.Forall₂ R.Drafts r₁.enclosing r₂.enclosing

theorem addCapture_resolutions {d₁ d₂ : Draft} (h : R.Drafts d₁ d₂)
    (he : List.Forall₂ R.Drafts e₁ e₂) (c : Capture) :
    R.Resolutions (d₁.addCapture c e₁) (d₂.addCapture c e₂) := by
  have hupvalues : d₂.upvalues = d₁.upvalues := h.view_eq fun _ _ _ => rfl
  have hline : d₂.line = d₁.line := h.view_eq fun _ _ _ => rfl
  unfold Draft.addCapture
  rw [hupvalues, hline]
  split
  · refine ⟨rfl, ?_, he⟩
    have hpush := h.update (fun d => { d with upvalues := d.upvalues.push c }) fun _ _ _ => rfl
    rw [hupvalues, hline] at hpush
    exact hpush
  · exact ⟨rfl, h, he⟩

theorem resolve_resolutions (x : String) (he : List.Forall₂ R.Drafts e₁ e₂) :
    ∀ {d₁ d₂ : Draft}, R.Drafts d₁ d₂ → R.Resolutions (d₁.resolve x e₁) (d₂.resolve x e₂) := by
  induction he with
  | nil =>
    intro d₁ d₂ h
    have hupvalues : d₂.upvalues = d₁.upvalues := h.view_eq fun _ _ _ => rfl
    unfold Draft.resolve
    rw [hupvalues]
    split <;> exact ⟨rfl, h, .nil⟩
  | @cons p₁ p₂ rest₁ rest₂ hp hrest ih =>
    intro d₁ d₂ h
    have hupvalues : d₂.upvalues = d₁.upvalues := h.view_eq fun _ _ _ => rfl
    have hvisible : p₂.visible = p₁.visible := hp.view_eq fun _ _ _ => rfl
    have hlocals : p₂.locals = p₁.locals := hp.view_eq fun _ _ _ => rfl
    have hcapture : ∀ i, R.Drafts (p₁.capture i) (p₂.capture i) := fun i =>
      hp.update (·.capture i) fun _ _ _ => rfl
    have houter := ih hp
    unfold Draft.resolve
    rw [hupvalues]
    split
    · exact ⟨rfl, h, .cons hp hrest⟩
    · dsimp only
      rw [hvisible, hlocals, houter.index]
      split
      · split
        · exact addCapture_resolutions h (.cons (hcapture _) hrest) _
        · exact ⟨rfl, h, .cons hp hrest⟩
      · split
        · exact addCapture_resolutions h (.cons houter.draft houter.enclosing) _
        · exact ⟨rfl, h, .cons houter.draft houter.enclosing⟩
        · exact ⟨rfl, h, .cons houter.draft houter.enclosing⟩

theorem upvalueOf?_alike (x : String) : Alike R (upvalueOf? x) := by
  intro w₁ w₂ hw
  have hresolve := resolve_resolutions x hw.enclosing hw.draft
  unfold upvalueOf?
  dsimp only
  rw [hresolve.index]
  split
  · exact .ok _ rfl rfl ⟨hw.low, hw.high, .cons hresolve.draft hresolve.enclosing⟩
  · exact .error _ rfl rfl

theorem Pairing.Workspaces.enter (h : R.Workspaces w₁ w₂) : R.Workspaces w₁.enter w₂.enter := by
  refine ⟨h.low, h.high, .cons ?_ h.stack⟩
  have hline : w₂.draft.line = w₁.draft.line := h.draft.view_eq fun _ _ _ => rfl
  show R.Drafts { Draft.fresh w₁.options with line := w₁.draft.line }
    { Draft.fresh w₂.options with line := w₂.draft.line }
  rw [h.low, h.high, hline]
  exact (Pairing.Drafts.fresh R).update ({ · with line := w₁.draft.line }) fun _ _ _ => rfl

theorem Pairing.Workspaces.leave (h : R.Workspaces w₁ w₂) : R.Workspaces w₁.leave w₂.leave := by
  have henclosing := h.enclosing
  cases he₁ : w₁.enclosing with
  | nil =>
    rw [he₁] at henclosing
    rw [Workspace.leave, Workspace.leave, he₁, List.forall₂_nil_left_iff.mp henclosing]
    exact h
  | cons d₁ rest₁ =>
    rw [he₁] at henclosing
    obtain ⟨d₂, rest₂, hd, hrest, he₂⟩ := List.forall₂_cons_left_iff.mp henclosing
    rw [Workspace.leave, Workspace.leave, he₁, he₂]
    exact ⟨h.low, h.high, .cons hd hrest⟩

/-- The function around, once the one inside is finished. -/
def Workspace.adopt (w : Workspace) : Workspace :=
  { w.leave with
    draft := { w.leave.draft with nested := w.leave.draft.nested.push (w.draft.finish w.options) }
    events := w.leave.events.push (.functionFinished (w.draft.finish w.options)) }

theorem Workspace.options_leave (w : Workspace) : w.leave.options = w.options := by
  unfold Workspace.leave
  split <;> rfl

theorem loadFunction_of_ok (lastLine a : Nat) (h : write w.enter = .ok () inner) :
    loadFunction lastLine write a w =
      Emit.closure lastLine a inner.leave.draft.nested.size inner.adopt := by
  have hnested : nested write w = .ok (inner.draft, ()) inner.leave := by rw [nested, h]
  rw [loadFunction, bind_of_ok hnested, Workspace.adopt, ← inner.options_leave]
  rfl

theorem loadFunction_of_error (lastLine a : Nat) (h : write w.enter = .error e inner) :
    loadFunction lastLine write a w = .error e inner.leave :=
  bind_of_error (show nested write w = _ by rw [nested, h])

theorem Pairing.Workspaces.adopt (h : R.Workspaces w₁ w₂) : R.Workspaces w₁.adopt w₂.adopt := by
  have hleave := h.leave
  refine ⟨hleave.low, hleave.high, .cons ?_ hleave.enclosing⟩
  show R.Drafts
    { w₁.leave.draft with nested := w₁.leave.draft.nested.push (w₁.draft.finish w₁.options) }
    { w₂.leave.draft with nested := w₂.leave.draft.nested.push (w₂.draft.finish w₂.options) }
  rw [h.low, h.high, h.draft.finish]
  exact hleave.draft.pushNested _

theorem closure_alike (line a i : Nat) : Alike R (Emit.closure line a i) :=
  (emit_alike line _).bind fun _ => alike_pure ()

/-- A function too large for a limit is still there once it is finished. -/
theorem Workspace.Exceeds.adopt (h : inner.Exceeds limit) (he : w.enter.Evolves inner)
    (hfits : w.options.registerLimit ≤ frameRegisters) : inner.adopt.Exceeds limit := by
  obtain ⟨hinner, henclosing⟩ := List.forall₂_cons.mp he.stack
  obtain ⟨parent, rest, -, -, hcons⟩ := List.forall₂_cons_left_iff.mp henclosing
  rw [Workspace.adopt, Workspace.leave, hcons]
  obtain ⟨d, hd, hexceeds⟩ := h
  rw [Workspace.stack, hcons] at hd
  rcases List.mem_cons.mp hd with rfl | hd
  · have hpeak : inner.draft.registers.peak ≤ w.options.registerLimit :=
      Nat.le_trans inner.draft.registers.peak_le (Nat.le_of_eq hinner.limit)
    exact ⟨_, List.mem_cons_self, Or.inr ⟨_, Array.mem_push_self,
      hexceeds.finish (Nat.le_trans hpeak hfits) _⟩⟩
  · rcases List.mem_cons.mp hd with rfl | hd
    · refine ⟨_, List.mem_cons_self, hexceeds.imp_right fun hnested => ?_⟩
      obtain ⟨p, hp, hlarge⟩ := hnested
      exact ⟨p, Array.mem_push_of_mem _ hp, hlarge⟩
    · exact ⟨d, List.mem_cons_of_mem _ hd, hexceeds⟩

theorem loadFunction_lockstep (lastLine a : Nat) (h : Lockstep R Unit write) :
    Lockstep R Unit (loadFunction lastLine write a) := by
  refine ⟨fun w₁ w₂ hw => ?_, loadFunction_evolving lastLine a h.evolving⟩
  rcases h.runs _ _ hw.enter with hagree | hparted
  · cases hagree with
    | ok x h₁ h₂ hw' =>
      have hsize : ∀ {d₁ d₂ : Draft}, R.Drafts d₁ d₂ → d₂.nested.size = d₁.nested.size := by
        intro d₁ d₂ hd
        rw [hd.eq]
        exact Array.size_map
      rw [loadFunction_of_ok lastLine a h₁, loadFunction_of_ok lastLine a h₂,
        hsize hw'.leave.draft]
      exact Or.inl (closure_alike lastLine a _ _ _ hw'.adopt)
    | error e h₁ h₂ =>
      exact Or.inl (.error e (loadFunction_of_error lastLine a h₁)
        (loadFunction_of_error lastLine a h₂))
  · obtain ⟨limit, line, w₁', h₁⟩ := hparted.stopped
    refine Or.inr ⟨hparted.limit, ⟨limit, line, _, loadFunction_of_error lastLine a h₁⟩,
      fun hfits y w₂'' hrun => ?_⟩
    cases h₂ : write w₂.enter with
    | ok x inner =>
      rw [loadFunction_of_ok lastLine a h₂] at hrun
      have hinner := (hparted.exceeds hfits x inner h₂).adopt ((h.evolving _).of_ok h₂)
        (hw.high ▸ hfits)
      exact hinner.evolves ((evolving_stepwise.closure lastLine a _ _).of_ok hrun)
    | error e inner =>
      rw [loadFunction_of_error lastLine a h₂] at hrun
      cases hrun

/-- Lowering keeps two runs in step. -/
theorem lockstep_stepwise (R : Pairing) : Stepwise (Lockstep R) where
  pure x := (alike_pure x).lockstep (evolving_pure x)
  bind := lockstep_bind
  reject why := (alike_reject why).lockstep (evolving_reject why)
  misuse how := (alike_misuse how).lockstep (evolving_misuse how)
  options {β f} h hf := by
    refine ⟨fun w₁ w₂ hw => ?_, fun w => (h w.options).evolving w⟩
    have hrun : ∀ w, (options >>= f) w = f w.options w := fun _ => rfl
    rw [hrun, hrun, hw.low, hw.high, hf _ _ R.constantLimit]
    exact (h R.low).runs w₁ w₂ hw
  currentLine := currentLine_alike.lockstep (evolving_view _)
  setLine line := (alike_update fun _ _ _ => rfl).lockstep (setLine_evolving line)
  here := here_alike.lockstep (evolving_view _)
  usedRegisters := usedRegisters_alike.lockstep (evolving_view _)
  takeRegister := takeRegister_lockstep
  takeRegisters := takeRegisters_lockstep
  freeRegisters n := giveBack_lockstep (givesBack_free n)
  freeRegistersTo mark := giveBack_lockstep (givesBack_freeTo mark)
  emit line i := (emit_alike line i).lockstep (emit_evolving line i)
  offsetBetween origin target :=
    (offsetBetween_alike origin target).lockstep (offsetBetween_evolving origin target)
  aimJump pc target := (aimJump_alike pc target).lockstep (aimJump_evolving pc target)
  constantIndex k := (constantIndex_alike k).lockstep (constantIndex_evolving k)
  declareLocal := declareLocal_lockstep
  localAt i := (localAt_alike i).lockstep (localAt_evolving i)
  slotOf? x := (slotOf?_alike x).lockstep (slotOf?_evolving x)
  declaredCount := declaredCount_alike.lockstep (evolving_view _)
  prolongLocals first past delta :=
    (prolongLocals_alike first past delta).lockstep (prolongLocals_evolving first past delta)
  openScope breakable := (openScope_alike breakable).lockstep (openScope_evolving breakable)
  addBreak pc line := (addBreak_alike pc line).lockstep (addBreak_evolving pc line)
  closeLevel := closeLevel_alike.lockstep closeLevel_evolving
  closeScope endPc := (closeScope_alike endPc).lockstep (closeScope_evolving endPc)
  upvalueOf? x := (upvalueOf?_alike x).lockstep (upvalueOf?_evolving x)
  heading line lastLine count isVararg := (alike_update fun _ _ _ => rfl).lockstep
    (evolving_stepwise.heading line lastLine count isVararg)
  function := loadFunction_lockstep

end

/-! ## Compiling a chunk twice -/

/-- Writing a main chunk, up to where it is finished. -/
def writeChunk (b : Block) : LowerM Unit := do
  update ({ · with lastLineDefined := b.lastLine })
  writeBody [] b.lower b.lastLine

theorem compile_of_ok (h : writeChunk b (.main o) = .ok () w) :
    compile b o = .ok (w.draft.finish w.options) := by
  have hbody : writeBody [] b.lower b.lastLine
      { Workspace.main o with draft := { Draft.main o with lastLineDefined := b.lastLine } } =
      .ok () w := h
  have hrun : compileChunk b (.main o) = .ok (w.draft.finish w.options) _ :=
    (bind_of_ok rfl).trans (bind_of_ok hbody)
  rw [compile, compileTraced, hrun]

theorem compile_of_error (h : writeChunk b (.main o) = .error e w) : compile b o = .error e := by
  have hbody : writeBody [] b.lower b.lastLine
      { Workspace.main o with draft := { Draft.main o with lastLineDefined := b.lastLine } } =
      .error e w := h
  have hrun : compileChunk b (.main o) = .error e w := (bind_of_ok rfl).trans (bind_of_error hbody)
  rw [compile, compileTraced, hrun]

theorem writeChunk_lockstep (R : Pairing) (b : Block) : Lockstep R Unit (writeChunk b) := by
  have hP := lockstep_stepwise R
  refine lockstep_bind (Alike.lockstep (alike_update fun _ _ _ => rfl) ?_) fun _ =>
    hP.writeBody [] (Stepwise.block hP b) b.lastLine
  exact evolving_update fun d => d.evolves_heading ..

theorem Pairing.Workspaces.main (R : Pairing) : R.Workspaces (.main R.low) (.main R.high) := by
  refine ⟨rfl, rfl, .cons ?_ .nil⟩
  exact (Pairing.Drafts.fresh R).update (fun d =>
    { d with
      isMain := true, isVararg := true,
      upvalues := #[{ name := "_ENV", inStack := true, index := 0 }] }) fun _ _ _ => rfl

/-- Under the second options compiling gives the image of what it gives under the first,
unless the first limit is too low. In that case what the second options lead to, if
anything, does not fit the first limit. -/
theorem compile_pairing (R : Pairing) (b : Block) :
    compile b R.high = (compile b R.low).map R.image ∨
      (R.low.registerLimit < R.high.registerLimit ∧
        (∃ limit line, compile b R.low = .error (.rejected (.registersExhausted limit line))) ∧
        (R.high.registerLimit ≤ frameRegisters →
          ∀ p, compile b R.high = .ok p → p.Exceeds R.low.registerLimit)) := by
  have hchunk := writeChunk_lockstep R b
  rcases hchunk.runs _ _ (.main R) with hagree | hparted
  · cases hagree with
    | ok x h₁ h₂ hw =>
      rw [compile_of_ok h₁, compile_of_ok h₂, hw.low, hw.high, hw.draft.finish]
      exact Or.inl rfl
    | error e h₁ h₂ =>
      rw [compile_of_error h₁, compile_of_error h₂]
      exact Or.inl rfl
  · obtain ⟨limit, line, w₁, h₁⟩ := hparted.stopped
    refine Or.inr ⟨hparted.limit, ⟨limit, line, compile_of_error h₁⟩, fun hfits p hp => ?_⟩
    cases h₂ : writeChunk b (.main R.high) with
    | ok x w₂ =>
      rw [compile_of_ok h₂] at hp
      cases hp
      obtain ⟨hmain, hnil⟩ := List.forall₂_cons.mp ((hchunk.evolving _).of_ok h₂).stack
      obtain ⟨d, hd, hexceeds⟩ := hparted.exceeds hfits x w₂ h₂
      rw [Workspace.stack, List.forall₂_nil_left_iff.mp hnil, List.mem_singleton] at hd
      subst hd
      exact hexceeds.finish (Nat.le_trans w₂.draft.registers.peak_le
        (Nat.le_trans (Nat.le_of_eq hmain.limit) hfits)) _
    | error e w₂ =>
      rw [compile_of_error h₂] at hp
      cases hp

end LuaLowering
