import LuaLowering.Proofs.Shape

/-!
# Locals come and go in stack order

Whatever a statement is made of, the locals that were open before it are open
after it, under those that it declares itself, and there is a register for each.
-/

namespace LuaLowering

/-- The locals of a point are still open at another, and all have registers. -/
structure Opens (S : Site) (P P' : Point) : Prop where
  suffix : P.opened <:+ P'.opened
  room : P'.opened = P.opened ∨ S.Room P'.opened.length

variable {S : Site} {exit : Option Exit} {P P' Q : Point} {startPc : Nat} {names : List String}
  {values : List Part}

namespace Opens

theorem of_eq (h : P'.opened = P.opened) : Opens S P P' := ⟨h ▸ List.suffix_refl _, Or.inl h⟩

theorem trans (h : Opens S P Q) (h' : Opens S Q P') : Opens S P P' := by
  refine ⟨h.suffix.trans h'.suffix, ?_⟩
  rcases h'.room with heq | hroom
  · rw [heq]
    exact h.room
  · exact Or.inr hroom

theorem length_le {n : Nat} (h : Opens S P P') (hP : P.opened.length ≤ n)
    (hn : S.options.registerLimit ≤ n) : P'.opened.length ≤ n := by
  rcases h.room with heq | hroom
  · rw [heq]
    exact hP
  · exact Nat.le_trans hroom.1 hn

end Opens

theorem Declares.length_eq (h : Declares S startPc names P P') :
    P'.opened.length = P.opened.length + names.length := by
  induction names generalizing P with
  | nil =>
    obtain rfl : P' = P := h
    rfl
  | cons x rest ih =>
    obtain ⟨-, -, hrest⟩ := h
    have hlen := ih hrest
    simp only [List.length_cons] at hlen ⊢
    omega

theorem Declares.pc_eq (h : Declares S startPc names P P') : P'.toMark = P.toMark := by
  induction names generalizing P with
  | nil =>
    obtain rfl : P' = P := h
    rfl
  | cons x rest ih => exact ih (P := ⟨P.toMark, P.declared :: P.opened, P.declared + 1⟩) h.2.2

theorem Declares.opens (h : Declares S startPc names P P') : Opens S P P' := by
  induction names generalizing P with
  | nil =>
    obtain rfl : P' = P := h
    exact .of_eq rfl
  | cons x rest ih =>
    obtain ⟨-, hroom, hrest⟩ := h
    have hlater := ih hrest
    refine ⟨(List.suffix_cons _ _).trans hlater.suffix, Or.inr ?_⟩
    rcases hlater.room with heq | hmore
    · rw [heq]
      exact hroom
    · exact hmore

theorem DeclareIs.opens (h : DeclareIs names values S exit P P') : Opens S P P' := by
  obtain ⟨mid, -, hdecl⟩ := h
  exact ⟨hdecl.opens.suffix, hdecl.opens.room⟩

theorem ScopedIs.opened_eq {body : StatShape} (h : ScopedIs body S exit P P') :
    P'.opened = P.opened := by
  obtain ⟨Q, new, -, -, -, -, hsame, -⟩ := h
  exact hsame

theorem ArmsAre.opened_eq {past : Nat} {arms : List ArmPart} (h : ArmsAre S exit past arms P P') :
    P'.opened = P.opened := by
  induction arms generalizing P with
  | nil =>
    obtain rfl : P' = P := h
    rfl
  | cons arm rest ih =>
    cases rest with
    | nil =>
      obtain ⟨top, -, hbody⟩ := h
      exact hbody.opened_eq
    | cons =>
      obtain ⟨top, Q, -, hbody, -, hrest⟩ := h
      exact (ih hrest).trans hbody.opened_eq

/-- Every statement. -/
theorem Stat.shape_opens {s : Stat} (h : s.shape S exit P P') : Opens S P P' := by
  cases s with
  | empty =>
    obtain rfl : P' = P := h
    exact .of_eq rfl
  | «break» =>
    obtain ⟨e, -, -, rfl⟩ := h
    exact .of_eq rfl
  | label | goto => exact False.elim h
  | block => exact .of_eq (ScopedIs.opened_eq h)
  | call =>
    obtain ⟨hi, -, -, rfl⟩ := h
    exact .of_eq rfl
  | whileLoop =>
    obtain ⟨top, Q, new, back, -, -, -, -, -, rfl, -⟩ := h
    exact .of_eq rfl
  | repeatLoop =>
    obtain ⟨Q, new, r, used, mid, -, -, -, -, -, -, -, hsame, -⟩ := h
    exact .of_eq hsame
  | ifChain => exact .of_eq (ArmsAre.opened_eq h)
  | numericFor =>
    rw [Stat.shape_numericFor] at h
    obtain ⟨P₁, P₂, Q, new, loop, -, -, -, -, -, -, -, rfl, -⟩ := h
    exact .of_eq rfl
  | genericFor =>
    obtain ⟨P₁, P₂, Q, new, call, -, -, -, -, -, -, -, -, rfl, -⟩ := h
    exact .of_eq rfl
  | assign =>
    obtain ⟨addresses, used, mid₁, mid₂, hi, -, -, -, rfl⟩ := h
    exact .of_eq rfl
  | declare =>
    rw [Stat.shape] at h
    exact h.opens
  | declareFunction =>
    obtain ⟨P₁, hi, hdecl, -, rfl⟩ := h
    exact hdecl.opens.trans (.of_eq rfl)

theorem Stat.shapeAll_opens {ss : List Stat} (h : Stat.shapeAll ss S exit P P') : Opens S P P' := by
  induction ss generalizing P with
  | nil =>
    obtain rfl : P' = P := h
    exact .of_eq rfl
  | cons s rest ih =>
    obtain ⟨Q, hfirst, hrest⟩ := h
    exact (Stat.shape_opens hfirst).trans (ih hrest)

theorem ReturnIs.opens (h : ReturnIs values S exit P P') : Opens S P P' := by
  cases h <;> subst P' <;> exact .of_eq rfl

theorem Block.shape_opens {b : Block} (h : b.shape S exit P P') : Opens S P P' := by
  obtain ⟨stats, result, line⟩ := b
  rw [Block.shape.eq_def] at h
  dsimp only at h
  split at h
  · exact Stat.shapeAll_opens h
  · obtain ⟨Q, hstats, n, mid, -, -, -, -, rfl⟩ := h
    exact (Stat.shapeAll_opens hstats).trans (.of_eq rfl)
  · obtain ⟨Q, hstats, hreturn⟩ := h
    exact (Stat.shapeAll_opens hstats).trans hreturn.opens

end LuaLowering
