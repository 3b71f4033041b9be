import LuaLowering.Scope

/-!
# Pending breaks among the open scopes

What statements do to the scopes that are open around them: they add locals to
the innermost one, and pending breaks to the innermost loop. Leaving a scope
raises exactly the breaks that were added inside it, because an older break
stands less deep.
-/

namespace LuaLowering

variable {s : Scope} {scopes : List Scope} {depth close depth' : Nat} {b : OpenBreak}
  {bs : List OpenBreak}

namespace Scope

/-- Adds pending breaks to the innermost loop. -/
def addBreaks (bs : List OpenBreak) : List Scope → List Scope
  | [] => []
  | s :: rest =>
    match s.breaks with
    | some old => { s with breaks := some (bs ++ old) } :: rest
    | none => s :: addBreaks bs rest

/-- Changes the pending breaks of the innermost loop. -/
def editBreaks (f : List OpenBreak → List OpenBreak) : List Scope → List Scope
  | [] => []
  | s :: rest =>
    match s.breaks with
    | some bs => { s with breaks := some (f bs) } :: rest
    | none => s :: editBreaks f rest

/-- Adds locals to the innermost scope. -/
def addLocals (new : List Nat) : List Scope → List Scope
  | [] => []
  | s :: rest => { s with locals := new ++ s.locals } :: rest

/-- Whether one of the scopes is a loop. -/
def inLoop (scopes : List Scope) : Bool := scopes.any (·.breaks.isSome)

/-- The locals of the open scopes, the latest first. -/
def allLocals (scopes : List Scope) : List Nat := scopes.flatMap (·.locals)

/-- Every pending break stands less deep than a number of scopes. -/
def BreaksBelow (depth : Nat) (scopes : List Scope) : Prop :=
  ∀ s ∈ scopes, ∀ b ∈ s.breaks.getD [], b.depth < depth

/-- The breaks of the innermost loop stand less deep than a number of scopes, and those of any
other less deep than the loop inside it. -/
def BreaksNested : Nat → List Scope → Prop
  | _, [] => True
  | depth, s :: rest =>
    match s.breaks with
    | some bs => (∀ b ∈ bs, b.depth < depth) ∧ BreaksNested rest.length rest
    | none => BreaksNested depth rest

theorem addBreaks_cons_loop {old : List OpenBreak} (hs : s.breaks = some old) (bs : List OpenBreak)
    (rest : List Scope) :
    addBreaks bs (s :: rest) = { s with breaks := some (bs ++ old) } :: rest := by
  rw [addBreaks, hs]

theorem addBreaks_cons_plain (hs : s.breaks = none) (bs : List OpenBreak) (rest : List Scope) :
    addBreaks bs (s :: rest) = s :: addBreaks bs rest := by
  rw [addBreaks, hs]

theorem addBreaks_eq_editBreaks (bs : List OpenBreak) (scopes : List Scope) :
    addBreaks bs scopes = editBreaks (bs ++ ·) scopes := by
  induction scopes with
  | nil => rfl
  | cons s rest ih => cases hs : s.breaks <;> simp [addBreaks, editBreaks, hs, ih]

theorem raiseBreaks_eq_editBreaks (depth close : Nat) (scopes : List Scope) :
    raiseBreaks depth close scopes = editBreaks (·.map (raise depth close)) scopes := by
  induction scopes with
  | nil => rfl
  | cons s rest ih => cases hs : s.breaks <;> simp [raiseBreaks, editBreaks, hs, ih]

theorem length_editBreaks (f : List OpenBreak → List OpenBreak) (scopes : List Scope) :
    (editBreaks f scopes).length = scopes.length := by
  induction scopes with
  | nil => rfl
  | cons s rest ih => cases hs : s.breaks <;> simp [editBreaks, hs, ih]

theorem allLocals_editBreaks (f : List OpenBreak → List OpenBreak) (scopes : List Scope) :
    allLocals (editBreaks f scopes) = allLocals scopes := by
  induction scopes with
  | nil => rfl
  | cons s rest ih =>
    rw [allLocals, allLocals] at ih
    cases hs : s.breaks <;> simp [editBreaks, allLocals, hs, ih]

theorem addBreaks_nil (scopes : List Scope) : addBreaks [] scopes = scopes := by
  induction scopes with
  | nil => rfl
  | cons s rest ih =>
    cases hs : s.breaks with
    | some old => rw [addBreaks_cons_loop hs, List.nil_append, ← hs]
    | none => rw [addBreaks_cons_plain hs, ih]

theorem addBreaks_addBreaks (bs bs' : List OpenBreak) (scopes : List Scope) :
    addBreaks bs' (addBreaks bs scopes) = addBreaks (bs' ++ bs) scopes := by
  induction scopes with
  | nil => rfl
  | cons s rest ih =>
    cases hs : s.breaks with
    | some old =>
      rw [addBreaks_cons_loop hs, addBreaks_cons_loop hs, addBreaks_cons_loop rfl,
        List.append_assoc]
    | none => rw [addBreaks_cons_plain hs, addBreaks_cons_plain hs, addBreaks_cons_plain hs, ih]

theorem addLocals_nil (scopes : List Scope) : addLocals [] scopes = scopes := by
  cases scopes <;> rfl

theorem addLocals_addLocals (new new' : List Nat) (scopes : List Scope) :
    addLocals new' (addLocals new scopes) = addLocals (new' ++ new) scopes := by
  cases scopes with
  | nil => rfl
  | cons s rest => simp [addLocals]

theorem addLocals_addBreaks (new : List Nat) (bs : List OpenBreak) (scopes : List Scope) :
    addLocals new (addBreaks bs scopes) = addBreaks bs (addLocals new scopes) := by
  cases scopes with
  | nil => rfl
  | cons s rest => cases hs : s.breaks <;> simp [addLocals, addBreaks, hs]

@[simp] theorem length_addBreaks (bs : List OpenBreak) (scopes : List Scope) :
    (addBreaks bs scopes).length = scopes.length := by
  rw [addBreaks_eq_editBreaks, length_editBreaks]

@[simp] theorem length_addLocals (new : List Nat) (scopes : List Scope) :
    (addLocals new scopes).length = scopes.length := by
  cases scopes <;> rfl

@[simp] theorem length_raiseBreaks (depth close : Nat) (scopes : List Scope) :
    (raiseBreaks depth close scopes).length = scopes.length := by
  rw [raiseBreaks_eq_editBreaks, length_editBreaks]

theorem length_pos_of_inLoop (h : inLoop scopes = true) : 0 < scopes.length := by
  cases scopes with
  | nil => cases h
  | cons s rest => exact Nat.succ_pos _

@[simp] theorem inLoop_addBreaks (bs : List OpenBreak) (scopes : List Scope) :
    inLoop (addBreaks bs scopes) = inLoop scopes := by
  induction scopes with
  | nil => rfl
  | cons s rest ih =>
    rw [inLoop, inLoop] at ih
    cases hs : s.breaks <;> simp [addBreaks, inLoop, hs, ih]

@[simp] theorem inLoop_addLocals (new : List Nat) (scopes : List Scope) :
    inLoop (addLocals new scopes) = inLoop scopes := by
  cases scopes <;> rfl

@[simp] theorem allLocals_addBreaks (bs : List OpenBreak) (scopes : List Scope) :
    allLocals (addBreaks bs scopes) = allLocals scopes := by
  rw [addBreaks_eq_editBreaks, allLocals_editBreaks]

theorem allLocals_addLocals (new : List Nat) (hne : scopes ≠ []) :
    allLocals (addLocals new scopes) = new ++ allLocals scopes := by
  cases scopes with
  | nil => exact absurd rfl hne
  | cons s rest => simp [allLocals, addLocals]

/-- A break can be recorded exactly inside a loop. -/
theorem addBreak?_eq (b : OpenBreak) (scopes : List Scope) :
    addBreak? b scopes = if inLoop scopes then some (addBreaks [b] scopes) else none := by
  induction scopes with
  | nil => rfl
  | cons s rest ih =>
    rw [inLoop] at ih
    cases hs : s.breaks with
    | some old => simp [addBreak?, addBreaks, inLoop, hs]
    | none =>
      rw [addBreak?, hs]
      dsimp only
      rw [ih, addBreaks_cons_plain hs]
      by_cases hany : rest.any (·.breaks.isSome) = true <;> simp [inLoop, hs, hany]

theorem raise_of_lt (h : b.depth < depth) :
    raise depth close b = b := if_neg (by omega)

theorem raise_of_le (h : depth ≤ b.depth) :
    raise depth close b = { b with depth := depth - 1, close := joinClose b.close close } :=
  if_pos h

@[simp] theorem pc_raise (depth close : Nat) (b : OpenBreak) : (raise depth close b).pc = b.pc := by
  unfold raise
  split <;> rfl

@[simp] theorem allLocals_raiseBreaks (depth close : Nat) (scopes : List Scope) :
    allLocals (raiseBreaks depth close scopes) = allLocals scopes := by
  rw [raiseBreaks_eq_editBreaks, allLocals_editBreaks]

/-- Older breaks are not raised. -/
theorem raiseBreaks_addBreaks (close : Nat) (bs : List OpenBreak)
    (hold : BreaksBelow depth scopes) :
    raiseBreaks depth close (addBreaks bs scopes) =
      addBreaks (bs.map (raise depth close)) scopes := by
  induction scopes with
  | nil => rfl
  | cons s rest ih =>
    cases hs : s.breaks with
    | some old =>
      have hkeep : old.map (raise depth close) = old := by
        refine (List.map_congr_left fun b hb => ?_).trans (List.map_id old)
        exact raise_of_lt (hold s List.mem_cons_self b (by simpa [hs] using hb))
      rw [addBreaks_cons_loop hs, addBreaks_cons_loop hs]
      simp [raiseBreaks, hkeep]
    | none =>
      rw [addBreaks_cons_plain hs, addBreaks_cons_plain hs, raiseBreaks, hs]
      dsimp only
      rw [ih fun t ht => hold t (List.mem_cons_of_mem _ ht)]

theorem BreaksBelow.addBreaks (hold : BreaksBelow depth scopes) (hnew : ∀ b ∈ bs, b.depth < depth) :
    BreaksBelow depth (addBreaks bs scopes) := by
  induction scopes with
  | nil => exact hold
  | cons s rest ih =>
    have hrest : BreaksBelow depth rest := fun t ht => hold t (List.mem_cons_of_mem _ ht)
    cases hs : s.breaks with
    | some old =>
      rw [addBreaks_cons_loop hs]
      intro t ht b hb
      rcases List.mem_cons.mp ht with rfl | ht
      · rcases List.mem_append.mp hb with h | h
        · exact hnew b h
        · exact hold s List.mem_cons_self b (by simpa [hs] using h)
      · exact hrest t ht b hb
    | none =>
      rw [addBreaks_cons_plain hs]
      intro t ht b hb
      rcases List.mem_cons.mp ht with rfl | ht
      · exact hold t List.mem_cons_self b hb
      · exact ih hrest t ht b hb

theorem BreaksBelow.addLocals (h : BreaksBelow depth scopes) (new : List Nat) :
    BreaksBelow depth (addLocals new scopes) := by
  cases scopes with
  | nil => exact h
  | cons s rest =>
    intro t ht
    rcases List.mem_cons.mp ht with rfl | hmem
    · exact h s List.mem_cons_self
    · exact h t (List.mem_cons_of_mem _ hmem)

theorem BreaksBelow.opened (h : BreaksBelow scopes.length scopes) (breakable : Bool) :
    BreaksBelow (Scope.opened breakable :: scopes).length (Scope.opened breakable :: scopes) := by
  intro s hs b hb
  rcases List.mem_cons.mp hs with rfl | hs
  · cases breakable <;> exact absurd hb List.not_mem_nil
  · exact Nat.lt_succ_of_lt (h s hs b hb)

/-! ### Breaks that are nested like their loops -/

section

variable {depth : Nat} {s : Scope} {rest scopes : List Scope}

theorem breaksNested_cons_loop (hs : s.breaks = some bs) :
    BreaksNested depth (s :: rest) ↔
      (∀ b ∈ bs, b.depth < depth) ∧ BreaksNested rest.length rest := by
  rw [BreaksNested, hs]

theorem breaksNested_cons_plain (hs : s.breaks = none) :
    BreaksNested depth (s :: rest) ↔ BreaksNested depth rest := by
  rw [BreaksNested, hs]

theorem BreaksNested.mono (h : BreaksNested depth scopes) (hle : depth ≤ depth') :
    BreaksNested depth' scopes := by
  induction scopes with
  | nil => trivial
  | cons s rest ih =>
    cases hs : s.breaks with
    | some bs =>
      rw [breaksNested_cons_loop hs] at h ⊢
      exact ⟨fun b hb => Nat.lt_of_lt_of_le (h.1 b hb) hle, h.2⟩
    | none =>
      rw [breaksNested_cons_plain hs] at h ⊢
      exact ih h

theorem BreaksNested.below (h : BreaksNested depth scopes) (hle : scopes.length ≤ depth) :
    BreaksBelow depth scopes := by
  induction scopes generalizing depth with
  | nil => exact fun s hs => absurd hs List.not_mem_nil
  | cons s rest ih =>
    rw [List.length_cons] at hle
    intro t ht b hb
    cases hs : s.breaks with
    | some bs =>
      rw [breaksNested_cons_loop hs] at h
      rcases List.mem_cons.mp ht with rfl | ht
      · exact h.1 b (by simpa [hs] using hb)
      · exact Nat.lt_of_lt_of_le (ih h.2 (Nat.le_refl _) t ht b hb) (by omega)
    | none =>
      rw [breaksNested_cons_plain hs] at h
      rcases List.mem_cons.mp ht with rfl | ht
      · simp [hs] at hb
      · exact ih h (by omega) t ht b hb

theorem BreaksNested.addLocals (h : BreaksNested depth scopes) (new : List Nat) :
    BreaksNested depth (addLocals new scopes) := by
  cases scopes with
  | nil => exact h
  | cons s rest => exact h

theorem BreaksNested.addBreaks (h : BreaksNested depth scopes) (hnew : ∀ b ∈ bs, b.depth < depth) :
    BreaksNested depth (addBreaks bs scopes) := by
  induction scopes with
  | nil => exact h
  | cons s rest ih =>
    cases hs : s.breaks with
    | some old =>
      rw [breaksNested_cons_loop hs] at h
      rw [addBreaks_cons_loop hs, breaksNested_cons_loop rfl]
      refine ⟨fun b hb => ?_, h.2⟩
      rcases List.mem_append.mp hb with hb | hb
      · exact hnew b hb
      · exact h.1 b hb
    | none =>
      rw [breaksNested_cons_plain hs] at h
      rw [addBreaks_cons_plain hs, breaksNested_cons_plain hs]
      exact ih h

theorem BreaksNested.opened (h : BreaksNested scopes.length scopes) (breakable : Bool) :
    BreaksNested (Scope.opened breakable :: scopes).length (Scope.opened breakable :: scopes) := by
  cases breakable with
  | true => exact ⟨fun b hb => absurd hb List.not_mem_nil, h⟩
  | false => exact h.mono (Nat.le_succ _)

/-- A break that is raised leaves from further out. -/
theorem depth_raise_lt (b : OpenBreak) (close : Nat) (hpos : 0 < depth) :
    (raise depth close b).depth < depth := by
  unfold raise
  split
  · exact Nat.sub_lt hpos Nat.one_pos
  · omega

theorem BreaksNested.raiseBreaks (close : Nat) (h : BreaksNested depth' scopes)
    (hpos : scopes ≠ [] → 0 < depth) : BreaksNested depth (raiseBreaks depth close scopes) := by
  induction scopes with
  | nil => exact h
  | cons s rest ih =>
    have hpos' := hpos (List.cons_ne_nil s rest)
    cases hs : s.breaks with
    | some bs =>
      rw [breaksNested_cons_loop hs] at h
      rw [Scope.raiseBreaks, hs]
      refine (breaksNested_cons_loop rfl).mpr ⟨fun b hb => ?_, h.2⟩
      obtain ⟨b', -, rfl⟩ := List.mem_map.mp hb
      exact depth_raise_lt b' close hpos'
    | none =>
      rw [breaksNested_cons_plain hs] at h
      rw [Scope.raiseBreaks, hs]
      exact (breaksNested_cons_plain hs).mpr (ih h fun _ => hpos')

end

end Scope

/-- Leaving scopes one after another closes down to the lowest level of all. -/
theorem joinClose_assoc (a b c : Nat) :
    joinClose (joinClose a b) c = joinClose a (joinClose b c) := by
  grind [joinClose]

theorem joinClose_le {m n k : Nat} (hm : m ≤ k) (hn : n ≤ k) : joinClose m n ≤ k := by
  grind [joinClose]

@[simp] theorem joinClose_zero_left (a : Nat) : joinClose 0 a = a := rfl

end LuaLowering
