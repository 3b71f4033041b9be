import LuaLowering.Proofs.Flow.Integrity
import LuaLowering.Proofs.Locals.Table

/-!
# When locals live

The table of locals says from where to where each of them is alive. Structured code
declares and ends them in stack order, so what is alive at an instruction is what is
open there: a local that a statement declares begins behind the point where the
statement begins, has a register above those of the locals around it, and has ended
where the statement ends unless it is still open.
-/

namespace LuaLowering

variable {S : Site} {proper : Prop} {opened : List Nat} {K K' : Set Nat} {lo hi : Mark}
  {exit : Option Exit} {P P' Q : Point} {names : List String} {startPc : Nat} {m mid : Mark}
  {P₁ P₂ : Point} {state : List String} {j : Nat} {v : Local}

/-- The locals that are declared between two points. -/
structure Lifetimes (S : Site) (P P' : Point) : Prop where
  declared_le : P.declared ≤ P'.declared
  new : ∀ j ∈ P'.opened, j ∈ P.opened ∨ P.declared ≤ j
  wf : P'.Wf
  starts : ∀ j v, P.declared ≤ j → j < P'.declared → S.draft.locals[j]? = some v →
    P.pc < v.startPc ∧ v.startPc ≤ P'.pc ∧ P.opened.length ≤ v.slot
  ends : ∀ j v, P.declared ≤ j → j < P'.declared → j ∉ P'.opened → S.draft.locals[j]? = some v →
    v.endPc ≤ P'.pc

/-! ## Declarations -/

theorem Declares.lifetimes (h : Declares S startPc names (P.at m) P') (hP : P.Wf)
    (hlt : names ≠ [] → P.pc < startPc) (hle : startPc ≤ m.pc) : Lifetimes S P P' := by
  have hdecl : P'.declared = P.declared + names.length := h.declared_eq
  have hmem : ∀ j, j ∈ P'.opened ↔ j ∈ P.opened ∨ P.declared ≤ j ∧ j < P'.declared := h.mem_opened
  have hpc : P'.pc = m.pc := by
    rw [h.pc_eq]
    rfl
  refine ⟨by omega, fun j hj => ?_, fun j hj => ?_, fun j v hge hj hv => ?_,
    fun j v hge hj hnot => ?_⟩
  · exact ((hmem j).mp hj).imp_right (·.1)
  · rcases (hmem j).mp hj with hold | hnew
    · have hlow := hP j hold
      omega
    · exact hnew.2
  · obtain ⟨-, hstart, hslot⟩ := h.local hge hj hv
    have hne : names ≠ [] := by
      rintro rfl
      simp only [List.length_nil] at hdecl
      omega
    exact ⟨hstart ▸ hlt hne, by omega, hslot⟩
  · exact absurd ((hmem j).mpr (Or.inr ⟨hge, hj⟩)) hnot

/-! ## Statements -/

namespace Lifetimes

theorem refl (S : Site) (hP : P.Wf) : Lifetimes S P (P.at m) := by
  refine ⟨le_rfl, fun j hj => Or.inl hj, hP, fun j v hge hlt => ?_, fun j v hge hlt => ?_⟩
  · exact absurd hlt (Nat.not_lt.mpr hge)
  · exact absurd hlt (Nat.not_lt.mpr hge)

theorem trans (h : Lifetimes S P Q) (h' : Lifetimes S Q P') (hopen : Q.opened <:+ P'.opened)
    (hlen : P.opened.length ≤ Q.opened.length) (hle : P.pc ≤ Q.pc) (hle' : Q.pc ≤ P'.pc) :
    Lifetimes S P P' := by
  have hdecl := h.declared_le
  refine ⟨Nat.le_trans hdecl h'.declared_le, fun j hj => ?_, h'.wf, fun j v hge hlt hv => ?_,
    fun j v hge hlt hnot hv => ?_⟩
  · rcases h'.new j hj with hQ | hQ
    · exact h.new j hQ
    · exact Or.inr (Nat.le_trans hdecl hQ)
  · rcases Nat.lt_or_ge j Q.declared with hj | hj
    · have hstarts := h.starts j v hge hj hv
      omega
    · have hstarts := h'.starts j v hj hlt hv
      omega
  · rcases Nat.lt_or_ge j Q.declared with hj | hj
    · exact Nat.le_trans (h.ends j v hge hj (fun hmem => hnot (hopen.subset hmem)) hv) hle'
    · exact h'.ends j v hj hlt hnot hv

/-- Code in front of a statement. -/
theorem behind (h : Lifetimes S (P.at m) P') (hle : P.pc ≤ m.pc) : Lifetimes S P P' where
  declared_le := h.declared_le
  new := h.new
  wf := h.wf
  starts := fun j v hge hlt hv => by
    have hstarts := h.starts j v hge hlt hv
    simp only [Point.pc_at] at hstarts
    exact ⟨by omega, hstarts.2⟩
  ends := h.ends

/-- The locals of a scope end with it. -/
theorem close (h : Lifetimes S P Q) {new : List Nat} (hP : P.Wf)
    (hopened : Q.opened = new ++ P.opened)
    (hends : ∀ j ∈ new, ∀ v, S.draft.locals[j]? = some v → v.endPc ≤ P'.pc)
    (hsame : P'.opened = P.opened) (hdecl : P'.declared = Q.declared) (hle : Q.pc ≤ P'.pc) :
    Lifetimes S P P' := by
  have hdecl_le := h.declared_le
  refine ⟨hdecl ▸ hdecl_le, fun j hj => Or.inl (hsame ▸ hj), fun j hj => ?_,
    fun j v hge hlt hv => ?_, fun j v hge hlt hnot hv => ?_⟩
  · rw [hsame] at hj
    have hlow := hP j hj
    omega
  · have hstarts := h.starts j v hge (hdecl ▸ hlt) hv
    omega
  · by_cases hj : j ∈ Q.opened
    · rw [hopened, List.mem_append] at hj
      rcases hj with hj | hj
      · exact hends j hj v hv
      · exact absurd (hsame ▸ hj) hnot
    · exact Nat.le_trans (h.ends j v hge (hdecl ▸ hlt) hj hv) hle

end Lifetimes

/-- Code that loads values is not empty. -/
theorem Code.lt {a n : Nat} (h : Code S proper opened (Set.Iio a) lo hi (Set.Iio (a + n)))
    (hn : n ≠ 0) : lo.pc < hi.pc := by
  by_contra hle
  have hsub := h.subset (Nat.not_lt.mp hle) (show a ∈ Set.Iio (a + n) from by simp; omega)
  simp at hsub

/-- What a `for` declares in front of its body: its state, and its variables, which
begin one instruction later. -/
theorem Declares.lifetimes_for (hstate : Declares S mid.pc state (P.at mid) P₁)
    (hnames : Declares S (mid.pc + 1) names P₁ P₂) (hP : P.Wf) (hlt : P.pc < mid.pc) :
    Lifetimes S P (P₂.at mid.next) := by
  have hpc : P₁.pc = mid.pc := by
    rw [hstate.pc_eq]
    rfl
  have h₁ : Lifetimes S P P₁ := hstate.lifetimes hP (fun _ => hlt) le_rfl
  have h₂ : Lifetimes S P₁ (P₂.at mid.next) :=
    (hnames.at mid.next).lifetimes h₁.wf (fun _ => by omega) le_rfl
  exact h₁.trans h₂ hnames.opens.suffix (show P.opened <:+ P₁.opened from
    hstate.opens.suffix).length_le (by omega) (by simp only [Point.pc_at, Mark.pc_next]; omega)

theorem Flow.lifetimes (h : Flow S proper exit P P') (hP : P.Wf) : Lifetimes S P P' := by
  induction h with
  | @skip exit P => exact .refl S (m := P.toMark) hP
  | seq hfirst hrest ih ih' =>
    have h₁ := ih hP
    exact h₁.trans (ih' h₁.wf) hrest.suffix hfirst.suffix.length_le hfirst.le hrest.le
  | declare hcode _ hdecl =>
    refine hdecl.lifetimes hP (fun hne => ?_) le_rfl
    exact hcode.lt (fun hzero => hne (List.length_eq_zero_iff.mp hzero))
  | leave | ret => exact .refl S hP
  | scope _ hopened hclose hend hsame hdecl ih =>
    exact (ih hP).close hP hopened (fun j hj v hv => Nat.le_of_eq (hend.eq hj hv)) hsame
      hdecl hclose.le
  | lastArm htest _ _ ih =>
    have hlt := htest.lt
    exact (ih hP).behind (by omega)
  | @arm exit P Q P' top htest hbody hjump hrest hmid _ ih ih' =>
    have hlt := htest.lt
    have hle := hbody.le
    have hle' := hrest.le
    simp only [Point.pc_at, Mark.pc_next] at hle hle'
    have h₁ : Lifetimes S P Q := (ih hP).behind (by omega)
    have h₂ : Lifetimes S Q P' := (ih' h₁.wf).behind (by simp only [Mark.pc_next]; omega)
    exact h₁.trans h₂ hrest.suffix (hmid ▸ le_rfl) (by omega) (by omega)
  | @whileLoop exit P Q P' top back new htest hbody hopened hclose hjump hpoint hend ih =>
    have hlt := htest.lt
    have hle := hclose.le
    have h₁ : Lifetimes S P Q := (ih hP).behind (by omega)
    refine h₁.close hP hopened (fun j hj v hv => Nat.le_of_eq (hend.eq hj hv)) ?_ ?_ ?_ <;>
      rw [hpoint]
    exact Nat.le_succ_of_le hle
  | repeatLoop _ hopened htest hclose hend hsame hdecl ih =>
    have hlt := htest.lt
    have hle := hclose.le
    exact (ih hP).close hP hopened (fun j hj v hv => Nat.le_of_eq (hend.eq hj hv)) hsame
      hdecl (by omega)
  | @forLoop exit P P₁ P₂ Q P' mid call back state names new i j extra K hinit hstate hthree _
      hnames _ _ _ _ _ hbody hopened hclose hcall _ _ _ _ _ hpoint hend hend' ih =>
    have hlt := hinit.lt (by decide)
    have hle := hbody.le
    have hle₁ := hclose.le
    have hle₂ := hcall.le
    simp only [Point.pc_at, Mark.pc_next] at hle
    have h₂ := hstate.lifetimes_for hnames hP hlt
    have hsuffix : P.opened <:+ P₂.opened :=
      (show P.opened <:+ P₁.opened from hstate.opens.suffix).trans hnames.opens.suffix
    have h₃ := h₂.trans (ih h₂.wf) hbody.suffix hsuffix.length_le
      (by simp only [Point.pc_at, Mark.pc_next]; omega)
      (by simp only [Point.pc_at, Mark.pc_next]; omega)
    have hend_pc : P'.pc = back.pc + 1 := by rw [hpoint, Mark.pc_next]
    refine h₃.close hP hopened (fun k hk v hv => ?_) (by rw [hpoint]) (by rw [hpoint]) (by omega)
    rcases Nat.lt_or_ge k (P.declared + 3) with hlow | hhigh
    · exact Nat.le_of_eq (hend.eq (List.mem_filter.mpr ⟨hk, by simpa using hlow⟩) hv)
    · rw [hend'.eq (List.mem_filter.mpr ⟨hk, by simpa using hhigh⟩) hv]
      omega

/-- What is open at the end of the body of a `for` was open before the loop, is its
hidden state, or is in a register above the state. -/
theorem Lifetimes.local_for (h : Lifetimes S (P₂.at mid.next) Q)
    (hstate : Declares S mid.pc state (P.at mid) P₁)
    (hhidden : ∀ x ∈ state, x.toList.head? = some '(')
    (hnames : Declares S (mid.pc + 1) names P₁ P₂) (hj : j ∈ Q.opened)
    (hv : S.draft.locals[j]? = some v) :
    j ∈ P.opened ∨ v.isHidden = true ∨
      P₁.declared ≤ j ∧ P₁.opened.length ≤ v.slot ∧ (P₂.declared ≤ j ∨ v.startPc = mid.pc + 1) := by
  rcases h.new j hj with hopen₂ | hge₂
  · rcases (hnames.mem_opened j).mp hopen₂ with hopen₁ | ⟨hge, hlt⟩
    · rcases (hstate.mem_opened j).mp hopen₁ with hold | ⟨hge, hlt⟩
      · exact Or.inl hold
      · have hname := hhidden _ (hstate.local hge hlt hv).1
        exact Or.inr (Or.inl (by simp [Local.isHidden, hname]))
    · obtain ⟨-, hstart, hslot⟩ := hnames.local hge hlt hv
      exact Or.inr (Or.inr ⟨hge, hslot, Or.inr hstart⟩)
  · have hdecl : P₂.declared = P₁.declared + names.length := hnames.declared_eq
    have hlen := hnames.opens.suffix.length_le
    have hslot : P₂.opened.length ≤ v.slot := (h.starts j v hge₂ (h.wf j hj) hv).2.2
    exact Or.inr (Or.inr ⟨Nat.le_trans (by omega : P₁.declared ≤ P₂.declared) hge₂,
      Nat.le_trans hlen hslot, Or.inl hge₂⟩)

/-- What is in range inside a part of the code is open there or declared there. -/
theorem Lifetimes.narrow {R R' : Point} {pc : Nat} (h : Lifetimes S P R)
    (hopen : P.opened <:+ R.opened) (hlater : Lifetimes S R' P' ∨ P'.declared ≤ R'.declared)
    (hge : R.pc ≤ pc) (hlt : pc < R'.pc) (hj : Among P P' j) (hv : S.draft.locals[j]? = some v)
    (hrange : v.InRange pc) : Among R R' j := by
  obtain ⟨hstart, hend⟩ := hrange
  rcases hj with hj | ⟨hlow, hhigh⟩
  · exact Or.inl (hopen.subset hj)
  rcases Nat.lt_or_ge j R.declared with hbefore | hbefore
  · by_cases hmem : j ∈ R.opened
    · exact Or.inl hmem
    · have hdead := h.ends j v hlow hbefore hmem hv
      omega
  · refine Or.inr ⟨hbefore, ?_⟩
    by_contra hafter
    rcases hlater with hlater | hdecl
    · have hstarts := hlater.starts j v (by omega) hhigh hv
      omega
    · omega

theorem Composed.wf (h : Composed S proper names P Q) : P.Wf := h.params.wf (by simp [Point.Wf])

end LuaLowering
