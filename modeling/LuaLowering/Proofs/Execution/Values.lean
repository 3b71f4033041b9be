import LuaLowering.Proofs.Execution.Expression

/-!
# The code of lists of values

The values of a list end up in a row of registers. A list is cut or filled up with
nil where a number of values is asked for; the nils at its end are not even loaded
one by one.
-/

namespace LuaLowering

open Machine

variable {A : Arithmetic} {S : Site} {hidden regs : Nat → Value} {opened : List Nat} {m : Memory}
  {used : Nat} {lo hi : Mark} {vs : List Value} {p : Part} {rest parts : List Part}

/-- The values of parts, one of each. -/
def Part.evalAll (A : Arithmetic) (m : Memory) (parts : List Part) : Option (List Value) :=
  parts.mapM fun p => p.exp.eval A m

theorem Part.evalAll_cons (h : Part.evalAll A m (p :: rest) = some vs) :
    ∃ v us, vs = v :: us ∧ p.exp.eval A m = some v ∧ Part.evalAll A m rest = some us := by
  rw [Part.evalAll, List.mapM_cons] at h
  obtain ⟨v, hv, h⟩ := Option.bind_eq_some_iff.mp h
  obtain ⟨us, hus, h⟩ := Option.bind_eq_some_iff.mp h
  exact ⟨v, us, (Option.some.inj h).symm, hv, hus⟩

theorem Part.length_evalAll (h : Part.evalAll A m parts = some vs) : vs.length = parts.length := by
  induction parts generalizing vs with
  | nil =>
    obtain rfl : [] = vs := Option.some.inj h
    rfl
  | cons p rest ih =>
    obtain ⟨v, us, rfl, -, hus⟩ := Part.evalAll_cons h
    rw [List.length_cons, ih hus, List.length_cons]

/-- Every list gives its values in the order of its parts. -/
theorem Expr.evalAll_parts (es : List Expr) :
    Part.evalAll A m (Expr.parts es) = Expr.evalAll A m es := by
  induction es with
  | nil => rfl
  | cons e rest ih =>
    rw [Part.evalAll, Expr.evalAll] at ih
    rw [Expr.parts, Part.evalAll, Expr.evalAll, List.mapM_cons, List.mapM_cons, ih]

theorem Expr.parts_computes {es : List Expr} (hS : S.Chunk) (hes : ∀ e ∈ es, e.FirstOrder) :
    ∀ p ∈ Expr.parts es, p.Computes A S ∧ p.exp.FirstOrder := by
  induction es with
  | nil => simp [Expr.parts]
  | cons e rest ih =>
    rw [Expr.parts, List.forall_mem_cons]
    rw [List.forall_mem_cons] at hes
    exact ⟨⟨Expr.computes hS hes.1, hes.1⟩, ih hes.2⟩

/-- No list of the fragment can give any number of values. -/
theorem Part.expands_eq_false (h : ∀ p ∈ parts, p.exp.FirstOrder) : Part.expands parts = false := by
  rw [Part.expands]
  split
  · next p hlast =>
    have hfirst := h p (List.mem_of_getLast? hlast)
    cases hp : p.exp <;> simp_all [Expr.isMulti, Expr.FirstOrder]
  · rfl

theorem EachIs.cons_iff :
    EachIs S opened 1 (p :: rest) used lo hi ↔ ∃ mid, S.Room (used + 1) ∧
      p.shape S opened used 1 (used + 1) lo mid ∧ EachIs S opened 1 rest (used + 1) mid hi := by
  cases rest with
  | nil => simp [EachIs]
  | cons => rfl

/-- Values in a row. -/
theorem EachIs.runs (hS : S.Chunk) (hparts : ∀ p ∈ parts, p.Computes A S)
    (h : EachIs S opened 1 parts used lo hi) (hm : Holds S hidden regs opened m.locals)
    (hlen : opened.length ≤ used) (hused : used ≤ 255) (hvs : Part.evalAll A m parts = some vs) :
    ∃ regs', S.Reaches A ⟨lo.pc, regs, m.globals⟩ ⟨hi.pc, regs', m.globals⟩ ∧
      InRow regs' used parts.length vs ∧ (∀ r < used, regs' r = regs r) ∧
      used + parts.length ≤ 255 := by
  induction parts generalizing used lo regs vs with
  | nil =>
    obtain rfl : hi = lo := h
    exact ⟨regs, .refl, fun _ hk => absurd hk (Nat.not_lt_zero _), fun _ _ => rfl, hused⟩
  | cons p rest ih =>
    obtain ⟨mid, hroom, hfirst, hrest⟩ := EachIs.cons_iff.mp h
    obtain ⟨v, us, rfl, hv, hus⟩ := Part.evalAll_cons hvs
    rw [List.forall_mem_cons] at hparts
    obtain ⟨regs₁, hrun₁, hval, hkeep₁⟩ :=
      hparts.1 hfirst hm hlen (Nat.lt_succ_self _) (hS.room hroom) hv
    have hm₁ := hm.frame fun r hr => hkeep₁ r (by omega) (by omega)
    obtain ⟨regs', hrun, hvals, hkeep, hmax⟩ :=
      ih hparts.2 hrest hm₁ (by omega) (hS.room hroom) hus
    refine ⟨regs', hrun₁.trans hrun, fun k hk => ?_, fun r hr => ?_, ?_⟩
    · cases k with
      | zero => simpa [hval] using hkeep used (by omega)
      | succ k =>
        have hk' := hvals k (by simpa using hk)
        rw [Nat.add_assoc, Nat.add_comm 1 k] at hk'
        simpa using hk'
    · rw [hkeep r (by omega), hkeep₁ r (by omega) (by omega)]
    · rw [List.length_cons]
      omega

/-! ## Lists of a given length -/

/-- A list is what is left without the literal nils at its end, and those. -/
theorem Part.withoutTailNils_append (parts : List Part) :
    ∃ nils, parts = Part.withoutTailNils parts ++ nils ∧ ∀ p ∈ nils, p.exp.isNil = true := by
  refine ⟨(parts.reverse.takeWhile (·.exp.isNil)).reverse, ?_, fun p hp => ?_⟩
  · rw [Part.withoutTailNils, ← List.reverse_append, List.takeWhile_append_dropWhile,
      List.reverse_reverse]
  · exact List.all_eq_true.mp List.all_takeWhile p (List.mem_reverse.mp hp)

theorem Part.evalAll_nils {nils : List Part} (h : ∀ p ∈ nils, p.exp.isNil = true) :
    Part.evalAll A m nils = some (List.replicate nils.length .nil) := by
  induction nils with
  | nil => rfl
  | cons p rest ih =>
    rw [List.forall_mem_cons] at h
    have hp : p.exp = .nil := by
      have hnil := h.1
      unfold Expr.isNil at hnil
      split at hnil
      · next he => exact he
      · cases hnil
    rw [Part.evalAll, List.mapM_cons, hp]
    rw [Part.evalAll] at ih
    rw [ih h.2]
    rfl

/-- Leaving out the nils at the end of a list does not change what is read from it. -/
theorem Part.evalAll_withoutTailNils (h : Part.evalAll A m parts = some vs) :
    ∃ us, Part.evalAll A m (Part.withoutTailNils parts) = some us ∧
      ∀ k, us.getD k .nil = vs.getD k .nil := by
  obtain ⟨nils, hparts, hnils⟩ := Part.withoutTailNils_append parts
  rw [hparts, Part.evalAll, List.mapM_append] at h
  obtain ⟨us, hus, h⟩ := Option.bind_eq_some_iff.mp h
  obtain ⟨ws, hws, h⟩ := Option.bind_eq_some_iff.mp h
  obtain rfl : List.replicate nils.length Value.nil = ws :=
    Option.some.inj ((Part.evalAll_nils hnils).symm.trans hws)
  obtain rfl : us ++ List.replicate nils.length Value.nil = vs := Option.some.inj h
  refine ⟨us, hus, fun k => ?_⟩
  rcases Nat.lt_or_ge k us.length with hk | hk
  · simp [List.getD_eq_getElem?_getD, List.getElem?_append_left hk]
  · simp only [List.getD_eq_getElem?_getD, List.getElem?_append_right hk, List.getElem?_replicate,
      List.getElem?_eq_none hk]
    split <;> rfl

theorem AdjustedIs.runs {n : Nat} (hS : S.Chunk)
    (hparts : ∀ p ∈ parts, p.Computes A S ∧ p.exp.FirstOrder)
    (h : AdjustedIs S opened n parts used lo hi) (hm : Holds S hidden regs opened m.locals)
    (hlen : opened.length ≤ used) (hused : used ≤ 255) (hvs : Part.evalAll A m parts = some vs) :
    ∃ regs', S.Reaches A ⟨lo.pc, regs, m.globals⟩ ⟨hi.pc, regs', m.globals⟩ ∧
      InRow regs' used n vs ∧ (∀ r < used, regs' r = regs r) ∧
      used + n ≤ 255 := by
  obtain ⟨us, hus, hsame⟩ := Part.evalAll_withoutTailNils hvs
  have hsub : ∀ p ∈ Part.withoutTailNils parts, p.Computes A S ∧ p.exp.FirstOrder := by
    obtain ⟨nils, hsplit, -⟩ := Part.withoutTailNils_append parts
    intro p hp
    refine hparts p ?_
    rw [hsplit]
    exact List.mem_append_left _ hp
  have hlast := Part.expands_eq_false fun p hp => (hsub p hp).2
  simp only [AdjustedIs, hlast, Bool.false_eq_true, and_false, if_false] at h
  split at h
  · next hle =>
    obtain ⟨regs', hrun, hvals, hkeep, hmax⟩ :=
      h.runs hS (fun p hp => (hsub p hp).1) hm hlen hused hus
    exact ⟨regs', hrun, fun k hk => (hvals k (by omega)).trans (hsame k), hkeep, by omega⟩
  · next hlt =>
    obtain ⟨hroom, mid, heach, hcode, rfl⟩ := h
    have hmax := hS.room hroom
    obtain ⟨regs₁, hrun, hvals, hkeep, -⟩ :=
      heach.runs hS (fun p hp => (hsub p hp).1) hm hlen hused hus
    have hcount := Part.length_evalAll hus
    refine ⟨_, hrun.trans (hcode.loadNil (by omega)), fun k hk => ?_, fun r hr => ?_, hmax⟩
    · dsimp only
      rw [← hsame k]
      rcases Nat.lt_or_ge k us.length with hin | hout
      · rw [if_neg (by omega), hvals k (by omega)]
      · rw [if_pos (by omega), List.getD_eq_getElem?_getD, List.getElem?_eq_none hout,
          Option.getD_none]
    · rw [if_neg (by omega), hkeep r hr]

end LuaLowering
