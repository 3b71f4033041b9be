import LuaLowering.Proofs.Lowering
import LuaLowering.Proofs.Flow.Statement

/-!
# Functions as structured code

A finished function is the code of its body between its parameters and a bare
return. All functions of a chunk are of this form, because each of them is made by
a closure that stands in the code of another. So what follows from the form of the
code holds of the chunk and of the functions at every depth of it.
-/

namespace LuaLowering

variable {S : Site} {proper : Prop} {opened : List Nat} {K K' : Set Nat} {lo hi : Mark}
  {exit : Option Exit} {P P' : Point} {o : Options} {q p : Prototype} {R : Prototype → Prop}
  {block : Block}

/-! ## Nested functions -/

theorem ClosesTo.nested_eq {level : Nat} (h : ClosesTo S level lo hi) : hi.nested = lo.nested := by
  rw [ClosesTo] at h
  split at h
  · rw [h]
  · rw [h.2, Mark.nested_next]

/-- Each function that is counted in the code of an expression is made there. -/
theorem Code.makes (h : Code S proper opened K lo hi K') :
    ∀ k, lo.nested ≤ k → k < hi.nested → S.Makes proper opened k := by
  induction h with
  | drop | step | far | compare =>
    intro k hge hlt
    exact absurd hlt (Nat.not_lt.mpr hge)
  | @seq K K₁ K' lo mid hi _ _ ih ih' =>
    intro k hge hlt
    rcases Nat.lt_or_ge k mid.nested with hmid | hmid
    · exact ih k hge hmid
    · exact ih' k hmid hlt
  | @closure K lo a _ hmakes =>
    intro k hge hlt
    obtain rfl : k = lo.nested := by
      simp only at hlt
      omega
    exact hmakes
  | either _ _ _ _ _ ih => exact ih

theorem Tested.makes {a target : Nat} (h : Tested S proper opened a target lo hi) :
    ∀ k, lo.nested ≤ k → k < hi.nested → S.Makes proper opened k := by
  obtain ⟨hcond, -, -, -, -⟩ := h
  exact hcond.makes

/-- Each function that is counted in the code of a statement is made there, under
some of the locals. -/
theorem Flow.makes (h : Flow S proper exit P P') (hP : S.Slotted P.opened) :
    ∀ k, P.nested ≤ k → k < P'.nested → ∃ opened, S.Slotted opened ∧ S.Makes proper opened k := by
  induction h with
  | skip | leave =>
    intro k hge hlt
    exact absurd hlt (Nat.not_lt.mpr hge)
  | @seq _ P Q P' hfirst _ ih ih' =>
    intro k hge hlt
    rcases Nat.lt_or_ge k Q.nested with hmid | hmid
    · exact ih hP k hge hmid
    · exact ih' (hfirst.slotted hP) k hmid hlt
  | declare hcode hsees hdecl =>
    intro k hge hlt
    rw [hdecl.pc_eq] at hlt
    refine ⟨_, ?_, hcode.makes k hge hlt⟩
    rcases hsees with rfl | ⟨rfl, -⟩
    · exact hP
    · exact hdecl.slotted hP
  | ret hcode =>
    intro k hge hlt
    exact ⟨_, hP, hcode.makes k hge hlt⟩
  | scope _ _ hclose _ _ _ ih =>
    intro k hge hlt
    rw [hclose.nested_eq] at hlt
    exact ih hP k hge hlt
  | @lastArm _ P P' top htest _ _ ih =>
    intro k hge hlt
    rcases Nat.lt_or_ge k top.nested with hmid | hmid
    · exact ⟨_, hP, htest.makes k hge hmid⟩
    · exact ih hP k hmid hlt
  | @arm _ P Q P' top htest _ _ _ hmid _ ih ih' =>
    intro k hge hlt
    rcases Nat.lt_or_ge k top.nested with htop | htop
    · exact ⟨_, hP, htest.makes k hge htop⟩
    rcases Nat.lt_or_ge k Q.nested with hbody | hbody
    · exact ih hP k htop hbody
    · exact ih' (show S.Slotted Q.opened from hmid ▸ hP) k hbody hlt
  | @whileLoop _ P Q P' top back new htest _ _ hclose _ hpoint _ ih =>
    intro k hge hlt
    rw [hpoint, Mark.nested_next, hclose.nested_eq] at hlt
    rcases Nat.lt_or_ge k top.nested with htop | htop
    · exact ⟨_, hP, htest.makes k hge htop⟩
    · exact ih hP k htop hlt
  | @repeatLoop _ P Q P' bottom new hbody _ htest hclose _ _ _ ih =>
    intro k hge hlt
    rw [hclose.nested_eq] at hlt
    rcases Nat.lt_or_ge k Q.nested with hmid | hmid
    · exact ih hP k hge hmid
    · exact ⟨_, hbody.slotted hP, htest.makes k hmid hlt⟩
  | @forLoop _ P P₁ P₂ Q P' mid call back _ _ new _ _ _ _ hinit hstate _ _ hnames _ _ _ _ _ _ _
      hclose hcall _ _ _ _ _ hpoint _ _ ih =>
    intro k hge hlt
    rw [hpoint, Mark.nested_next] at hlt
    rcases Nat.lt_or_ge k mid.nested with hmid | hmid
    · exact ⟨_, hP, hinit.makes k hge hmid⟩
    rcases Nat.lt_or_ge k call.nested with hbody | hbody
    · rw [hclose.nested_eq] at hbody
      exact ih (hnames.slotted (hstate.slotted hP)) k hmid hbody
    · exact ⟨_, hP, hcall.makes k hbody hlt⟩

/-- What a nested function captures is in the frame or among the upvalues. -/
theorem Capture.FromFrame.index_lt {c : Capture} (h : c.FromFrame ⟨S.draft, opened⟩)
    (hslot : S.Slotted opened) : if c.inStack then c.index < S.peak
      else c.index < S.draft.upvalues.size := by
  rw [Capture.FromFrame] at h
  split at h
  · next v hv =>
      rw [if_pos h.1, h.2.1]
      exact Nat.lt_of_lt_of_le (hslot.local_lt hv) hslot.length_le
  · rw [if_neg (by simp [h.1])]
    exact h.2

/-! ## Whole functions -/

/-- A finished function is the code of its body, between its parameters and a bare
return. -/
structure Composed (S : Site) (proper : Prop) (names : List String) (P Q : Point) : Prop where
  limited : S.Limited
  fits : S.Fits
  params : Declares S 0 names ⟨⟨0, 0⟩, [], 0⟩ P
  body : Flow S proper none P Q
  last : S.Has Q.pc (.abc .ret 0 (countCode 0) 0)
  size : S.draft.code.size = Q.pc + 1
  ends : S.EndAt (Q.pc + 1) Q.opened
  locals : S.draft.locals.size = Q.declared
  nested : S.draft.nested.size = Q.nested
  count : S.draft.paramCount = names.length

theorem WrittenIs.composed {names : List String} {body : StatShape} (hb : body.Flows proper)
    (hregs : S.options.registerLimit ≤ frameRegisters)
    (hconsts : S.options.constantLimit ≤ operandConstants) (h : WrittenIs names body S) :
    ∃ P Q, Composed S proper names P Q := by
  obtain ⟨P, Q, hparams, hbody, hlast, hsize, hends, hlocals, hnested, hcount, hfits⟩ := h
  have hS := hfits.limited hregs hconsts
  have hflow := hb hS (hparams.slotted trivial) hbody
  exact ⟨P, Q, hS, hfits, hparams, hflow, hlast, hsize, hends, hlocals, hnested, hcount⟩

namespace Composed

variable {names : List String} {Q : Point}

section

variable (h : Composed S proper names P Q)

include h

theorem slotted : S.Slotted P.opened := h.params.slotted trivial

theorem pc_eq : P.toMark = ⟨0, 0⟩ := h.params.pc_eq

/-- Every nested function is one of the source. -/
theorem makes (hq : q ∈ (S.draft.finish S.options).protos) :
    ∃ k opened, S.draft.nested[k]? = some q ∧
      S.Slotted opened ∧ S.Makes proper opened k := by
  obtain ⟨k, hk⟩ := Array.mem_iff_getElem?.mp (Array.mem_toList_iff.mp hq)
  have hlt := (Array.getElem?_eq_some_iff.mp hk).1
  rw [h.nested] at hlt
  obtain ⟨opened, hslot, hmakes⟩ :=
    h.body.makes h.slotted k (by rw [h.pc_eq]; exact Nat.zero_le _) hlt
  exact ⟨k, opened, hk, hslot, hmakes⟩

theorem paramCount_le : S.draft.paramCount ≤ S.peak := by
  have hlen := h.params.length_eq
  have hle := h.slotted.length_le
  simp only [List.length_nil] at hlen
  rw [h.count]
  omega

theorem nested_captures (hq : q ∈ (S.draft.finish S.options).protos) :
    ∃ inner : Draft, q = inner.finish S.options ∧
      ∀ c ∈ inner.upvalues, if c.inStack then c.index < S.peak
        else c.index < S.draft.upvalues.size := by
  obtain ⟨k, opened, hk, hslot, f, inner, hk', hfrom, -⟩ := h.makes hq
  exact ⟨inner, Option.some.inj (hk.symm.trans hk'), fun c hc => (hfrom c hc).index_lt hslot⟩

end

end Composed

/-- A prototype is that of a finished function. -/
def Prototype.Composes (o : Options) (proper : Prop) (p : Prototype) : Prop :=
  ∃ S names P Q, S.options = o ∧ p = S.draft.finish o ∧ Composed S proper names P Q

theorem Prototype.Composes.protos (hregs : o.registerLimit ≤ frameRegisters)
    (hconsts : o.constantLimit ≤ operandConstants) (h : p.Composes o proper) :
    ∀ q ∈ p.protos, q.Composes o proper := by
  intro q hq
  obtain ⟨S, names, P, Q, rfl, rfl, hcomp⟩ := h
  obtain ⟨k, opened, hk, hslot, f, inner, hk', hfrom, hproper, hwritten⟩ := hcomp.makes hq
  obtain rfl := Option.some.inj (hk.symm.trans hk')
  obtain ⟨params, more, body, first, last⟩ := f
  obtain ⟨P', Q', hcomp'⟩ := WrittenIs.composed (S := ⟨S.options, inner, _⟩)
    (Block.flows body hproper) hregs hconsts hwritten.1
  exact ⟨⟨S.options, inner, _⟩, params, P', Q', rfl, rfl, hcomp'⟩

mutual

/-- What a function hands down to those nested in it holds of all its family. -/
theorem Prototype.family_induction (h : ∀ p, R p → ∀ q ∈ p.protos, R q) :
    ∀ p : Prototype, R p → ∀ q ∈ p.family, R q
  | ⟨source, first, last, params, more, slots, code, constants, upvalues, protos, lines, locals⟩,
      hp => by
      intro q hq
      rw [Prototype.family, List.mem_cons] at hq
      rcases hq with rfl | hq
      · exact hp
      · exact Prototype.families_induction h protos (h _ hp) q hq

theorem Prototype.families_induction (h : ∀ p, R p → ∀ q ∈ p.protos, R q) :
    ∀ ps : List Prototype, (∀ p ∈ ps, R p) → ∀ q ∈ Prototype.families ps, R q
  | [], _ => by simp [Prototype.families]
  | p :: rest, hps => by
      intro q hq
      rw [List.forall_mem_cons] at hps
      rw [Prototype.families, List.mem_append] at hq
      rcases hq with hq | hq
      · exact Prototype.family_induction h p hps.1 q hq
      · exact Prototype.families_induction h rest hps.2 q hq

end

theorem compile_of_isOk (block : Block) (o : Options) (h : (compile block o).isOk = true) :
    ∃ p, compile block o = .ok p := by
  cases hc : compile block o with
  | ok p => exact ⟨p, rfl⟩
  | error e =>
    rw [hc] at h
    cases h

/-- Every function of a chunk that compiles is structured code. -/
theorem compile_composes (hregs : o.registerLimit ≤ frameRegisters)
    (hconsts : o.constantLimit ≤ operandConstants) (h : compile block o = .ok p) :
    ∀ q ∈ p.family, q.Composes o (block.Every Stat.Iterates) := by
  obtain ⟨d, rfl, -, hwritten⟩ := compile_written hregs h
  obtain ⟨P, Q, hcomp⟩ := WrittenIs.composed (Block.flows block id) hregs hconsts hwritten
  exact Prototype.family_induction (fun _ hp => hp.protos hregs hconsts) _
    ⟨_, [], P, Q, rfl, rfl, hcomp⟩

end LuaLowering
