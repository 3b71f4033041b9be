import LuaLowering.Proofs.Displacement.Twins

/-!
# The builder at two places

Each step of the builder, taken in two functions that differ in where their code begins.
A step that neither gives nor takes a position is `Steady`: it does the same in both. Of
the others it is said which positions go together, before and after.
-/

namespace LuaLowering

open LowerM

/-- Two functions, as they are before the same code is added to both, and what is around them. -/
structure Sites extends Twins where
  around : Surroundings

namespace Sites

section

variable (T : Sites)

/-- The two workspaces after `k` instructions have been added, with `m` scopes open that were not
open at the beginning. -/
structure Workspaces (k m : Nat) (w v : Workspace) : Prop where
  options : v.options = w.options
  enclosing : T.around.Around w.enclosing v.enclosing
  draft : T.Drafts k m w.draft v.draft

/-- Two steps ended in the same way. If they finished, `m` scopes are open. -/
inductive Ends {α β : Type} (k m : Nat) (Q : Nat → α → β → Prop)
    (r : EStateM.Result Stop Workspace α) (s : EStateM.Result Stop Workspace β) : Prop
  | ok {k' : Nat} {x : α} {y : β} {w v : Workspace} (hr : r = .ok x w) (hs : s = .ok y v)
      (hk : k ≤ k') (hw : T.Workspaces k' m w v) (hQ : Q k' x y)
  | stopped {k' m' : Nat} {stop : Stop} {w v : Workspace} (hr : r = .error stop w)
      (hs : s = .error stop v) (hw : T.Workspaces k' m' w v)

/-- Two steps go the same way from all such workspaces. -/
def Abreast {α β : Type} (k m m' : Nat) (p : LowerM α) (q : LowerM β) (Q : Nat → α → β → Prop) :
    Prop :=
  ∀ ⦃w v : Workspace⦄, T.Workspaces k m w v → T.Ends k m' Q (p w) (q v)

end

/-- A step that does the same at either place, and leaves the scopes that are open. -/
def Steady (α : Type) (p : LowerM α) : Prop :=
  ∀ (T : Sites) (k m : Nat), T.Abreast k m m p p fun _ x y => y = x

variable {T : Sites} {α β γ δ : Type} {k k' m m' m₁ : Nat} {w v : Workspace} {x y : Nat}

/-! ## Sequences -/

theorem Ends.bind {p : LowerM α} {q : LowerM β} {f : α → LowerM γ} {g : β → LowerM δ}
    {Q : Nat → α → β → Prop} {Q' : Nat → γ → δ → Prop} (h : T.Ends k m₁ Q (p w) (q v))
    (hf : ∀ {k' : Nat} {x : α} {y : β} {w' v' : Workspace}, k ≤ k' →
      T.Workspaces k' m₁ w' v' → Q k' x y → T.Ends k' m' Q' (f x w') (g y v')) :
    T.Ends k m' Q' ((p >>= f) w) ((q >>= g) v) := by
  cases h with
  | ok hr hs hk hw hQ =>
    rw [bind_of_ok hr, bind_of_ok hs]
    cases hf hk hw hQ with
    | ok hr' hs' hk' hw' hQ' => exact .ok hr' hs' (Nat.le_trans hk hk') hw' hQ'
    | stopped hr' hs' hw' => exact .stopped hr' hs' hw'
  | stopped hr hs hw => exact .stopped (bind_of_error hr) (bind_of_error hs) hw

theorem Abreast.bind {p : LowerM α} {q : LowerM β} {f : α → LowerM γ} {g : β → LowerM δ}
    {Q : Nat → α → β → Prop} {Q' : Nat → γ → δ → Prop} (h : T.Abreast k m m₁ p q Q)
    (hf : ∀ k' x y, k ≤ k' → Q k' x y → T.Abreast k' m₁ m' (f x) (g y) Q') :
    T.Abreast k m m' (p >>= f) (q >>= g) Q' :=
  fun _ _ hw => (h hw).bind fun hk hw' hQ => hf _ _ _ hk hQ hw'

theorem Abreast.mono {p : LowerM α} {q : LowerM β} {Q Q' : Nat → α → β → Prop}
    (h : T.Abreast k m m' p q Q) (hQ : ∀ k' x y, Q k' x y → Q' k' x y) :
    T.Abreast k m m' p q Q' := by
  intro w v hw
  cases h hw with
  | ok hr hs hk hw' hxy => exact .ok hr hs hk hw' (hQ _ _ _ hxy)
  | stopped hr hs hw' => exact .stopped hr hs hw'

theorem abreast_pure {Q : Nat → α → β → Prop} {x : α} {y : β} (h : Q k x y) :
    T.Abreast k m m (pure x) (pure y) Q := fun _ _ hw => .ok rfl rfl (Nat.le_refl _) hw h

theorem abreast_reject {Q : Nat → α → β → Prop} (why : Rejection) :
    T.Abreast k m m' (reject why) (reject why) Q := fun _ _ hw => .stopped rfl rfl hw

theorem abreast_misuse {Q : Nat → α → β → Prop} (how : Misuse) :
    T.Abreast k m m' (misuse how) (misuse how) Q := fun _ _ hw => .stopped rfl rfl hw

theorem abreast_record (a b : Event) :
    T.Abreast k m m (record a) (record b) fun _ _ _ => True :=
  fun _ _ hw => .ok rfl rfl (Nat.le_refl _) ⟨hw.options, hw.enclosing, hw.draft⟩ trivial

theorem abreast_view {Q : Nat → α → β → Prop} {g : Draft → α} {h : Draft → β}
    (hg : ∀ {d e : Draft}, T.Drafts k m d e → Q k (g d) (h e)) :
    T.Abreast k m m (view g) (view h) Q :=
  fun _ _ hw => .ok rfl rfl (Nat.le_refl _) hw (hg hw.draft)

theorem abreast_update {g h : Draft → Draft}
    (hg : ∀ {d e : Draft}, T.Drafts k m d e → T.Drafts k m' (g d) (h e)) :
    T.Abreast k m m' (update g) (update h) fun _ _ _ => True :=
  fun _ _ hw => .ok rfl rfl (Nat.le_refl _) ⟨hw.options, hw.enclosing, hg hw.draft⟩ trivial

theorem Steady.bind {p : LowerM α} {f : α → LowerM β} (h : Steady α p)
    (hf : ∀ x, Steady β (f x)) : Steady β (p >>= f) := by
  intro T k m
  refine (h T k m).bind fun k' x y _ hxy => ?_
  subst hxy
  exact hf y T k' m

/-- A steady step, followed by steps that take positions. -/
theorem Steady.andThen {p : LowerM α} {f : α → LowerM β} {g : α → LowerM γ} {Q : Nat → β → γ → Prop}
    (h : Steady α p) (hf : ∀ k' x, k ≤ k' → T.Abreast k' m m' (f x) (g x) Q) :
    T.Abreast k m m' (p >>= f) (p >>= g) Q := by
  refine (h T k m).bind fun k' x y hk hxy => ?_
  subst hxy
  exact hf k' y hk

theorem steady_of_abreast {p : LowerM Unit}
    (h : ∀ (T : Sites) (k m : Nat), T.Abreast k m m p p fun _ _ _ => True) : Steady Unit p :=
  fun T k m => (h T k m).mono fun _ _ _ _ => rfl

theorem steady_view {g : Draft → α}
    (hg : ∀ {T : Twins} {k m : Nat} {d e : Draft}, T.Drafts k m d e → g e = g d) :
    Steady α (view g) := fun _ _ _ => abreast_view hg

theorem steady_update {g : Draft → Draft}
    (hg : ∀ {T : Twins} {k m : Nat} {d e : Draft}, T.Drafts k m d e → T.Drafts k m (g d) (g e)) :
    Steady Unit (update g) :=
  fun _ _ _ => (abreast_update hg).mono fun _ _ _ _ => rfl

theorem steady_pure (x : α) : Steady α (pure x) := fun _ _ _ => abreast_pure rfl

theorem steady_reject (why : Rejection) : Steady α (reject why) := fun _ _ _ => abreast_reject why

theorem steady_misuse (how : Misuse) : Steady α (misuse how) := fun _ _ _ => abreast_misuse how

/-! ## Code -/

theorem here_abreast : T.Abreast k m m here here T.Here := abreast_view (·.here)

theorem currentLine_steady : Steady Nat currentLine := steady_view (·.line)

theorem setLine_steady (line : Nat) : Steady Unit (setLine line) :=
  steady_update fun h => { h with line := rfl }

theorem emit_abreast (line : Nat) (i : Instruction) :
    T.Abreast k m m (emit line i) (emit line i) fun k' x y => k' = k + 1 ∧ T.Here k x y :=
  fun _ _ hw => .ok rfl rfl (Nat.le_succ k)
    ⟨hw.options, hw.enclosing, hw.draft.emit line i⟩ ⟨rfl, hw.draft.here⟩

theorem asbx_abreast (line : Nat) (op : Opcode) (a : Nat) (offset : Int) :
    T.Abreast k m m (Emit.asbx line op a offset) (Emit.asbx line op a offset)
      fun k' x y => k' = k + 1 ∧ T.Here k x y := by
  unfold Emit.asbx
  split
  · exact emit_abreast line _
  · exact abreast_misuse _

theorem setInstruction_abreast (hxy : T.Written k x y) (i : Instruction) :
    T.Abreast k m m (setInstruction x i) (setInstruction y i) fun _ _ _ => True := by
  intro w v hw
  obtain ⟨hx, hy⟩ := hw.draft.lt_pc hxy
  unfold setInstruction LuaLowering.here
  rw [view_bind_run, view_bind_run, if_pos hx, if_pos hy]
  exact abreast_update (·.setCode hxy i) hw

theorem offsetBetween_abreast {x' y' : Nat} (hxy : T.At k x y) (hxy' : T.At k x' y') :
    T.Abreast k m m (offsetBetween x x') (offsetBetween y y') fun k' a b => k' = k ∧ b = a := by
  intro w v hw
  obtain ⟨hx, hy⟩ := hw.draft.le_pc hxy
  obtain ⟨hx', hy'⟩ := hw.draft.le_pc hxy'
  unfold offsetBetween LuaLowering.here
  rw [view_bind_run, view_bind_run, hw.draft.offset hxy hxy']
  split
  · exact abreast_pure ⟨rfl, rfl⟩ hw
  · rw [view_bind_run, view_bind_run, if_pos (Or.inl (Nat.max_le.mpr ⟨hx, hx'⟩)),
      if_pos (Or.inl (Nat.max_le.mpr ⟨hy, hy'⟩))]
    exact currentLine_steady.andThen (fun _ _ _ => abreast_reject _) hw

theorem aimJump_abreast {x' y' : Nat} (hxy : T.Written k x y) (hxy' : T.At k x' y') :
    T.Abreast k m m (aimJump x x') (aimJump y y') fun _ _ _ => True := by
  unfold aimJump
  refine (offsetBetween_abreast hxy.at hxy').bind fun k' a b hk hab => ?_
  obtain ⟨rfl, rfl⟩ := hab
  intro w v hw
  rw [view_bind_run, view_bind_run, hw.draft.codeAt hxy]
  cases hx : w.draft.code[x]? with
  | some i => exact ((setInstruction_abreast hxy _).bind fun _ _ _ _ _ => abreast_record _ _) hw
  | none =>
    exact absurd (hw.draft.lt_pc hxy).1 (Nat.not_lt.mpr (Array.getElem?_eq_none_iff.mp hx))

/-! ## Registers and constants -/

theorem keepTaken_steady (taken : Option (Nat × Registers)) : Steady Nat (keepTaken taken) := by
  cases taken with
  | some taken =>
    obtain ⟨first, registers⟩ := taken
    have hset : Steady Unit (update ({ · with registers })) := steady_update (·.setRegisters _)
    exact hset.bind fun _ => steady_pure first
  | none =>
    refine (steady_view fun h => ?_).bind fun _ => currentLine_steady.bind fun _ =>
      steady_reject _
    rw [h.registers]

theorem registers_steady : Steady Registers (view (·.registers)) := steady_view (·.registers)

theorem takeRegister_steady : Steady Nat takeRegister :=
  registers_steady.bind fun r => keepTaken_steady r.take?

theorem takeRegisters_steady (n : Nat) : Steady Nat (takeRegisters n) := by
  refine registers_steady.bind fun r => ?_
  split
  · exact keepTaken_steady _
  · exact steady_misuse _

theorem usedRegisters_steady : Steady Nat usedRegisters :=
  steady_view fun h => congrArg Registers.used h.registers

theorem giveBack_steady (f : Registers → Except Misuse Registers) : Steady Unit (giveBack f) := by
  refine registers_steady.bind fun r => ?_
  split
  · exact steady_update (·.setRegisters _)
  · exact steady_misuse _

theorem constantIndex_steady (c : Constant) : Steady Nat (constantIndex c) := by
  refine (steady_view fun h => by rw [h.constants]).bind fun i => ?_
  cases i with
  | some i => exact steady_pure i
  | none =>
    have hpush : Steady Unit (update fun d => { d with constants := d.constants.push c }) :=
      steady_update fun h => { h with constants := congrArg (·.push c) h.constants }
    refine (steady_view fun h => by rw [h.constants]).bind fun i => ?_
    exact hpush.bind fun _ => steady_pure i

/-! ## Locals -/

theorem declareLocal_abreast (name : String) (hxy : T.Shifted x y) :
    T.Abreast k m m (declareLocal name x) (declareLocal name y) fun _ a b => b = a := by
  refine (takeRegister_steady T k m).bind fun k' a b _ hab => ?_
  subst hab
  exact (abreast_update (·.declare name b hxy)).bind fun _ _ _ _ _ => abreast_pure rfl

theorem declareLocals_abreast (names : List String) (hxy : T.Shifted x y) :
    T.Abreast k m m (declareLocals x names) (declareLocals y names) fun _ _ _ => True := by
  induction names generalizing k with
  | nil => exact abreast_pure trivial
  | cons name rest ih => exact (declareLocal_abreast name hxy).bind fun _ _ _ _ _ => ih

theorem localAt_abreast (i : Nat) :
    T.Abreast k m m (localAt i) (localAt i) fun _ u v => T.Locals i u v := by
  intro w v hw
  unfold localAt
  rw [view_bind_run, view_bind_run]
  rcases optionRel_cases (hw.draft.locals i) with ⟨hx, hy⟩ | ⟨x, y, hx, hy, hxy⟩
  · rw [hx, hy]
    exact abreast_misuse _ hw
  · rw [hx, hy]
    exact abreast_pure (Q := fun _ u v => T.Locals i u v) hxy hw

theorem slotOf?_steady (name : String) : Steady (Option Nat) (slotOf? name) := by
  refine (steady_view fun h => by rw [h.visible]).bind fun i => ?_
  cases i with
  | none => exact steady_pure none
  | some i =>
    intro T k m
    refine (localAt_abreast i).bind fun k' u v _ huv => abreast_pure ?_
    rw [huv.slot]

theorem declaredCount_steady : Steady Nat declaredCount := steady_view (·.locals.size)

theorem prolongLocals_steady (first past delta : Nat) :
    Steady Unit (prolongLocals first past delta) := by
  refine declaredCount_steady.bind fun count => ?_
  split
  · exact steady_update (·.prolongLocals first _ delta)
  · exact steady_misuse _

theorem endLocals_abreast (is : List Nat) (hxy : T.Shifted x y) :
    T.Abreast k m m (endLocals x is) (endLocals y is) fun _ _ _ => True := by
  induction is generalizing k with
  | nil => exact abreast_pure trivial
  | cons i rest ih =>
    refine Abreast.bind (Q := fun _ _ _ => True) ?_ fun _ _ _ _ _ => ih
    refine (localAt_abreast i).bind fun k₁ u v _ huv => ?_
    refine (abreast_update (·.endLocal huv hxy)).bind fun k₂ _ _ _ _ => ?_
    rw [huv.slot]
    exact (giveBack_steady _ T k₂ m).mono fun _ _ _ _ => trivial

theorem localsAt_abreast (is : List Nat) :
    T.Abreast k m m (localsAt is) (localsAt is)
      fun _ us vs => vs.map Local.timeless = us.map Local.timeless := by
  induction is generalizing k with
  | nil => exact abreast_pure rfl
  | cons i rest ih =>
    refine (localAt_abreast i).bind fun _ u v _ huv => ih.bind fun _ us vs _ huvs =>
      abreast_pure ?_
    rw [List.map_cons, List.map_cons, huv.timeless, huvs]

/-! ## Scopes -/

theorem openScope_abreast (breakable : Bool) :
    T.Abreast k m (m + 1) (openScope breakable) (openScope breakable) fun _ _ _ => True :=
  (abreast_update (·.openScope breakable)).bind fun _ _ _ _ _ =>
    (abreast_view (Q := fun _ _ _ => True) fun _ => trivial).bind fun _ _ _ _ _ =>
      abreast_record _ _

theorem addBreak_abreast (hxy : T.Written k x y) (line : Nat) :
    T.Abreast k m m (addBreak x line) (addBreak y line) fun _ _ _ => True := by
  intro w v hw
  have hscopes := hw.draft.scopes
  unfold addBreak
  rw [view_bind_run, view_bind_run, Scope.addBreak?_eq, Scope.addBreak?_eq, Twins.inLoop_eq hscopes,
    ← hscopes.length_eq]
  split
  · exact .ok rfl rfl (Nat.le_refl _) ⟨hw.options, hw.enclosing, hw.draft.addBreak hxy _⟩ trivial
  · exact abreast_reject _ hw

/-- What a scope has to close has nothing to do with the ranges of its locals. -/
theorem closeLevelOf_map_timeless (vars : List Local) :
    closeLevelOf (vars.map Local.timeless) = closeLevelOf vars := by
  unfold closeLevelOf
  rw [List.any_map, List.filter_map, List.map_map]
  rfl

theorem closeLevel_steady : Steady Nat closeLevel := by
  intro T k m w v hw
  have hscopes := hw.draft.scopes
  unfold closeLevel
  rw [view_bind_run, view_bind_run]
  cases hs : w.draft.scopes with
  | nil =>
    rw [hs] at hscopes
    rw [List.forall₂_nil_left_iff.mp hscopes]
    exact abreast_pure rfl hw
  | cons s outer =>
    rw [hs] at hscopes
    obtain ⟨t, outer', hst, -, ht⟩ := List.forall₂_cons_left_iff.mp hscopes
    rw [ht]
    dsimp only
    rw [hst.locals]
    refine (localsAt_abreast _).bind (fun _ us vs _ huvs => abreast_pure ?_) hw
    rw [← closeLevelOf_map_timeless vs, huvs, closeLevelOf_map_timeless]

theorem patchBreak_abreast {b c : OpenBreak} (h : T.Breaks b c) (hpc : T.Written k b.pc c.pc)
    (hxy : T.At k x y) (close : Nat) :
    T.Abreast k m m (patchBreak close x b) (patchBreak close y c) fun _ _ _ => True := by
  unfold patchBreak
  dsimp only
  rw [h.close]
  refine (offsetBetween_abreast hpc.at hxy).bind fun k' offset _ _ hoffset => ?_
  obtain ⟨rfl, rfl⟩ := hoffset
  exact (setInstruction_abreast hpc _).bind fun _ _ _ _ _ => abreast_record _ _

theorem patchBreaks_abreast {bs cs : List OpenBreak} (h : List.Forall₂ T.Breaks bs cs)
    (hpc : ∀ b ∈ bs, ∃ j < k, b.pc = T.left.pc + j) (hxy : T.At k x y) (close : Nat) :
    T.Abreast k m m (patchBreaks close x bs) (patchBreaks close y cs) fun _ _ _ => True := by
  induction h generalizing k with
  | nil => exact abreast_pure trivial
  | cons hb _ ih =>
    obtain ⟨hfirst, hrest⟩ := List.forall_mem_cons.mp hpc
    refine (patchBreak_abreast hb (hb.written hfirst) hxy close).bind fun k' _ _ hk _ => ?_
    refine ih (fun b hb => ?_) (hxy.mono hk)
    obtain ⟨j, hj, hb⟩ := hrest b hb
    exact ⟨j, Nat.lt_of_lt_of_le hj hk, hb⟩

theorem closeScope_abreast (hxy : T.Shifted x y) :
    T.Abreast k (m + 1) m (closeScope x) (closeScope y) fun _ _ _ => True := by
  refine (closeLevel_steady T k (m + 1)).bind fun k₁ _ close _ hclose => ?_
  subst hclose
  intro w v hw
  have hscopes := hw.draft.scopes
  have hinner := hw.draft.inner
  rw [view_bind_run, view_bind_run]
  cases hs : w.draft.scopes with
  | nil =>
    rw [hs] at hscopes
    rw [List.forall₂_nil_left_iff.mp hscopes]
    refine .ok rfl rfl (Nat.le_refl _) ⟨hw.options, hw.enclosing, ?_⟩ trivial
    exact { hw.draft with inner := fun s h => by simp [hs] at h }
  | cons s outer =>
    rw [hs] at hscopes
    obtain ⟨t, outer', hst, houter, ht⟩ := List.forall₂_cons_left_iff.mp hscopes
    rw [hs, List.take_succ_cons, Twins.Within, List.forall_mem_cons] at hinner
    obtain ⟨hfirst, hinner⟩ := hinner
    have hend : ∀ k₂ event event', T.Abreast k₂ m m (do endLocals x s.locals; record event)
        (do endLocals y s.locals; record event') fun _ _ _ => True := fun _ _ _ =>
      (endLocals_abreast s.locals hxy).bind fun _ _ _ _ _ => abreast_record _ _
    rw [ht]
    dsimp only
    rw [hst.locals, ← houter.length_eq]
    rcases optionRel_cases hst.breaks with ⟨hbs, hcs⟩ | ⟨bs, cs, hbs, hcs, hbreaks⟩
    · -- the breaks inside leave the scope around
      rw [hbs, hcs]
      exact (abreast_update (·.raiseBreaks houter hinner outer.length close)).bind
        (fun _ _ _ _ _ => hend _ _ _) hw
    · -- the breaks land behind the loop
      rw [hbs, hcs]
      have hleave : T.Abreast k₁ (m + 1) m (update ({ · with scopes := outer }))
          (update ({ · with scopes := outer' })) fun _ _ _ => True :=
        abreast_update fun h => { h with scopes := houter, inner := hinner }
      refine hleave.bind (fun k₂ _ _ hk _ => here_abreast.bind fun k₃ _ _ hk' htarget =>
        (patchBreaks_abreast ?_ ?_ (htarget.at (Nat.le_refl _)) close).bind
          fun _ _ _ _ _ => hend _ _ _) hw
      · exact List.forall₂_reverse_iff.mpr hbreaks
      · intro b hb
        obtain ⟨j, hj, hb⟩ := hfirst b (by rw [hbs]; exact List.mem_reverse.mp hb)
        exact ⟨j, Nat.lt_of_lt_of_le hj (Nat.le_trans hk hk'), hb⟩

/-! ## Outer variables -/

theorem upvalueOf?_steady (name : String) : Steady (Option Nat) (upvalueOf? name) := by
  intro T k m w v hw
  have hsame := T.around.resolve hw.enclosing name hw.draft.upvalues hw.draft.line
  obtain ⟨upvalues, hr, hs⟩ := hsame.draft
  have hdrafts : T.Drafts k m (w.draft.resolve name w.enclosing).draft
      (v.draft.resolve name v.enclosing).draft := by
    rw [hr, hs]
    exact { hw.draft with upvalues := rfl }
  unfold upvalueOf?
  dsimp only
  rw [hsame.index]
  split
  · exact .ok rfl rfl (Nat.le_refl _) ⟨hw.options, hsame.enclosing, hdrafts⟩ rfl
  · exact .stopped rfl rfl ⟨hw.options, hsame.enclosing, hdrafts⟩

/-- Code that goes by no place does the same at either. -/
theorem steady_placeless : Placeless Steady where
  pure := steady_pure
  bind := Steady.bind
  reject := steady_reject
  misuse := steady_misuse
  options := by
    intro β f hf _ T k m w v hw
    have hrun : ∀ w : Workspace, (options >>= f) w = f w.options w := fun _ => rfl
    rw [hrun, hrun, hw.options]
    exact hf w.options T k m hw
  currentLine := currentLine_steady
  setLine := setLine_steady
  usedRegisters := usedRegisters_steady
  takeRegister := takeRegister_steady
  takeRegisters := takeRegisters_steady
  freeRegisters _ := giveBack_steady _
  freeRegistersTo _ := giveBack_steady _
  write line i hrest := fun T k m => (emit_abreast line i).bind fun k' _ _ _ _ => hrest T k' m
  constantIndex := constantIndex_steady
  slotOf? := slotOf?_steady
  declaredCount := declaredCount_steady
  closeLevel := closeLevel_steady
  upvalueOf? := upvalueOf?_steady

end Sites

end LuaLowering
