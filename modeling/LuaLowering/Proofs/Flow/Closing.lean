import LuaLowering.Proofs.Flow.Lifetimes
import LuaLowering.Proofs.Flow.Standing

/-!
# Captured locals are closed

A local that a nested function refers to must be closed before its register is
given to something else. Once control is behind the declaration of a local it stays
inside the scope, for it can only run on to the end of the scope or jump out of the
loop around it. If the local is captured, both go through a jump whose level is at
most its register, so there is a position before the end of its range that control
does not get past without closing it.

The level of a scope is that of its lowest local which is not state of a loop. So
all this is said of locals that are not hidden.
-/

namespace LuaLowering

variable {S : Site} {proper : Prop} {opened new : List Nat} {K K' : Set Nat} {lo hi : Mark}
  {exit : Option Exit} {P P' Q : Point} {i : Instruction} {v : Local} {j m pc r : Nat}

/-! ## Closing jumps -/

/-- A jump closes the upvalues of a register, and of all those above it. -/
def Instruction.Closes (i : Instruction) (r : Nat) : Prop :=
  i.opcode? = some .jmp ∧ i.a ≠ 0 ∧ i.a ≤ r + 1

instance (i : Instruction) (r : Nat) : Decidable (i.Closes r) := inferInstanceAs (Decidable (_ ∧ _))

theorem Instruction.Closes.closes? (h : i.Closes r) : i.closes? = some (i.a - 1) := by
  rw [Instruction.closes?_eq h.1, Opcode.closes?, if_pos ⟨rfl, h.2.1⟩]

/-- A scope with a captured local is closed from that local on, or from further down. -/
theorem closeLevelOf_captured {vars : List Local} (hv : v ∈ vars) (hcaptured : v.captured = true)
    (hshown : v.isHidden = false) : closeLevelOf vars ≠ 0 ∧ closeLevelOf vars ≤ v.slot + 1 := by
  have hany : vars.any (·.captured) = true := List.any_eq_true.mpr ⟨v, hv, hcaptured⟩
  have hslot : v.slot ∈ (vars.filter fun w => !w.isHidden).map (·.slot) :=
    List.mem_map.mpr ⟨v, List.mem_filter.mpr ⟨hv, by simp [hshown]⟩, rfl⟩
  rw [closeLevelOf, if_pos hany]
  split
  · next slot hmin =>
      have hle := (List.min?_eq_some_iff.mp hmin).2 _ hslot
      omega
  · next hnone =>
      rw [List.min?_eq_none_iff] at hnone
      rw [hnone] at hslot
      cases hslot

theorem Site.level_captured (hj : j ∈ new) (hv : S.draft.locals[j]? = some v)
    (hcaptured : v.captured = true) (hshown : v.isHidden = false) :
    S.level new ≠ 0 ∧ S.level new ≤ v.slot + 1 :=
  closeLevelOf_captured (List.mem_filterMap.mpr ⟨j, hj, hv⟩) hcaptured hshown

/-- The inner of two scopes is closed with the outer one. -/
theorem joinClose_covers_inner {m n : Nat} (hm : m ≠ 0) :
    joinClose m n ≠ 0 ∧ joinClose m n ≤ m := by
  grind [joinClose]

/-- The way out of a loop closes a register. -/
def Exit.Closes (e : Exit) (r : Nat) : Prop := e.close ≠ 0 ∧ e.close ≤ r + 1

theorem Instruction.Leaves.closes {t : Int} (h : i.Leaves exit t)
    (hexit : ∀ e, exit = some e → e.Closes r) : i.Closes r := by
  obtain ⟨e, he, -, hop, hclose⟩ := h
  obtain ⟨hne, hle⟩ := hexit e he
  obtain ⟨hpos, hle'⟩ := hclose hne
  exact ⟨hop, hpos, Nat.le_trans hle' hle⟩

theorem Site.Jumps.closes (hS : S.Limited) {a target : Nat} (h : S.Jumps .jmp pc a target)
    (hpeak : a ≤ S.peak) (hne : a ≠ 0) (hle : a ≤ r + 1) :
    S.Stays proper (fun i _ => i.Closes r) pc :=
  h.stays hS hpeak fun _ hop ha => ⟨hop, ha ▸ hne, ha ▸ hle⟩

/-! ## Scopes -/

/-- Control stays between the beginning of a local and a position, unless it goes
through a jump that closes the local. -/
def Site.Seals (S : Site) (proper : Prop) (v : Local) (m : Nat) : Prop :=
  S.Runs proper (fun i t => i.Closes v.slot ∨ Between v.startPc m t) v.startPc (m + 1)

/-- Control that is behind the declaration of a local does not get in front of it as
long as the local is open. -/
theorem Flow.confines (hS : S.Limited) (h : Flow S proper exit P P') (hP : S.Slotted P.opened)
    (hwf : P.Wf) (hexit : ∀ e, exit = some e → e.close ≤ S.peak)
    (hv : S.draft.locals[j]? = some v) (hj : j ∈ P'.opened)
    (hnew : P.declared ≤ j ∨ v.startPc = P.pc) :
    S.Runs proper (fun i t => Between v.startPc P'.pc t ∨ i.Leaves exit t) v.startPc P'.pc := by
  rcases hnew with hnew | hstart
  swap
  · rw [hstart]
    exact h.runs hS hP hexit
  -- only a declaration leaves anything open that was not open before it
  have hsame : ∀ {R : Point}, R.Wf → R.declared ≤ j → j ∉ R.opened := by
    intro R hR hge hmem
    exact Nat.not_lt.mpr hge (hR j hmem)
  induction h with
  | skip | leave | ret => exact absurd hj (hsame hwf hnew)
  | @seq exit P Q P' hfirst hrest ih ih' =>
    have hlife := hfirst.lifetimes hwf
    have hle := hrest.le
    by_cases hlow : j < Q.declared
    · have hopen : j ∈ Q.opened := by
        rcases (hrest.lifetimes hlife.wf).new j hj with hopen | hge
        · exact hopen
        · exact absurd hlow (Nat.not_lt.mpr hge)
      have hstart := (hlife.starts j v hnew hlow hv).2.1
      have hbehind := hrest.runs hS (hfirst.slotted hP) hexit
      exact ((ih hP hwf hexit hopen hnew).mono fun _ _ ht =>
          ht.imp_left (·.mono le_rfl hle)).append
        (hbehind.mono fun _ _ ht => ht.imp_left (·.mono hstart le_rfl))
    · exact ih' (hfirst.slotted hP) hlife.wf hexit hj (Nat.not_lt.mp hlow)
  | @declare exit P P' hi names opened hcode hsees hdecl =>
    have hlt : j < P'.declared := hdecl.wf (show (P.at hi).Wf from hwf) j hj
    have hstart := (hdecl.local (P := P.at hi) hnew hlt hv).2.1
    have hpc : P'.pc = hi.pc := by
      rw [hdecl.pc_eq]
      rfl
    intro pc hge hlt
    omega
  | scope _ _ _ _ hopened | lastArm _ _ hopened | arm _ _ _ _ _ hopened
  | repeatLoop _ _ _ _ _ hopened =>
    rw [hopened] at hj
    exact absurd hj (hsame hwf hnew)
  | whileLoop _ _ _ _ _ hpoint | forLoop _ _ _ _ _ _ _ _ _ _ _ _ _ _ _ _ _ _ _ hpoint =>
    rw [hpoint] at hj
    exact (hsame hwf hnew hj).elim

/-- What leaves a loop counts as closing where every way out of it does. -/
theorem Site.Runs.closing {l h : Nat} {close : Int → Prop}
    (hr : S.Runs proper (fun i t => close t ∨ i.Leaves exit t) l h)
    (hexit : ∀ e, exit = some e → e.Closes r) :
    S.Runs proper (fun i t => i.Closes r ∨ close t) l h :=
  hr.mono fun _ _ ht => ht.elim Or.inr fun hleaves => Or.inl (hleaves.closes hexit)

/-- A closing jump stands behind code that control leaves only by closing. -/
theorem Site.Runs.seals (hS : S.Limited) {level target : Nat}
    (h : S.Runs proper (fun i t => i.Closes v.slot ∨ Between v.startPc m t) v.startPc m)
    (hjump : S.Jumps .jmp m level target) (hpeak : level ≤ S.peak)
    (hlevel : level ≠ 0 ∧ level ≤ v.slot + 1) : S.Seals proper v m :=
  h.append ((Site.Runs.one (hjump.closes hS hpeak hlevel.1 hlevel.2)).mono fun _ _ => Or.inl)

theorem ClosesTo.jump {level : Nat} (h : ClosesTo S level lo hi) (hne : level ≠ 0) :
    S.Jumps .jmp lo.pc level hi.pc ∧ hi = lo.next := by
  rcases h.jumps with heq | hjump
  · rw [ClosesTo, if_neg hne] at h
    have hpc := congrArg Mark.pc (heq.symm.trans h.2)
    rw [Mark.pc_next] at hpc
    omega
  · exact hjump

/-! ## Closures -/

/-- Control that has passed a position does not leave the range of a captured local
without closing it. -/
def Site.ClosesBehind (S : Site) (proper : Prop) (v : Local) (pc : Nat) : Prop :=
  v.captured = true → v.isHidden = false → ∃ m, pc < m ∧ m < v.endPc ∧ S.Seals proper v m

/-- Every way out of a loop closes a scope if anything in it is captured. -/
def Site.Covers (S : Site) (new : List Nat) (exit : Option Exit) : Prop :=
  ∀ e, exit = some e → e.close ≤ S.peak ∧
    (S.level new ≠ 0 → e.close ≠ 0 ∧ e.close ≤ S.level new)

theorem Site.Slotted.covers_loop (h : S.Slotted (new ++ opened)) (target : Nat) :
    S.Covers new (some ⟨target, S.level new⟩) := by
  intro e he
  obtain rfl := Option.some.inj he
  exact ⟨h.level_le, fun hne => ⟨hne, le_rfl⟩⟩

theorem Site.Slotted.covers_scope (h : S.Slotted (new ++ opened))
    (hexit : ∀ e, exit = some e → e.close ≤ S.peak) :
    S.Covers new (exit.map (·.inside (S.level new))) := by
  intro e he
  obtain ⟨e', he', rfl⟩ := Option.map_eq_some_iff.mp he
  exact ⟨joinClose_le h.level_le (hexit e' he'), joinClose_covers_inner⟩

section

variable (hS : S.Limited) (h : Flow S proper exit P Q) (hP : S.Slotted P.opened) (hwf : P.Wf)
  (hcovers : S.Covers new exit) (hopened : Q.opened = new ++ opened) (hj : j ∈ new)
  (hv : S.draft.locals[j]? = some v) (hnew : P.declared ≤ j ∨ v.startPc = P.pc)

include hS h hP hwf hcovers hopened hj hv hnew

/-- Control leaves the body of a scope at its end or closes the captured locals. -/
theorem Flow.confines_captured (hlevel : S.level new ≠ 0 ∧ S.level new ≤ v.slot + 1) :
    S.Runs proper (fun i t => i.Closes v.slot ∨ Between v.startPc Q.pc t) v.startPc Q.pc := by
  have hopen : j ∈ Q.opened := hopened ▸ List.mem_append_left _ hj
  refine (h.confines hS hP hwf (fun e he => (hcovers e he).1) hv hopen hnew).closing fun e he => ?_
  obtain ⟨hne, hle⟩ := (hcovers e he).2 hlevel.1
  exact ⟨hne, Nat.le_trans hle hlevel.2⟩

/-- A local of a scope whose body is followed by what closes the scope. -/
theorem Flow.closesBehind (hclose : ClosesTo S (S.level new) Q.toMark hi) (hend : hi.pc ≤ v.endPc)
    (hlt : pc < Q.pc) : S.ClosesBehind proper v pc := by
  intro hcaptured hshown
  have hlevel := S.level_captured hj hv hcaptured hshown
  have hslot := h.slotted hP
  rw [hopened] at hslot
  have hbody := h.confines_captured hS hP hwf hcovers hopened hj hv hnew hlevel
  obtain ⟨hjump, rfl⟩ := hclose.jump hlevel.1
  exact ⟨Q.pc, hlt, hend, hbody.seals hS hjump hslot.level_le hlevel⟩

/-- A condition behind the body belongs to the scope. Its jump closes as well. -/
theorem Flow.closesBehind_test {target : Nat} {bottom : Mark} (hstart : v.startPc ≤ Q.pc)
    (htest : Tested S proper Q.opened (S.level new) target Q.toMark bottom)
    (hclose : ClosesTo S (S.level new) bottom hi) (hend : hi.pc ≤ v.endPc) (hlt : pc < bottom.pc) :
    S.ClosesBehind proper v pc := by
  intro hcaptured hshown
  have hlevel := S.level_captured hj hv hcaptured hshown
  have hslot := h.slotted hP
  rw [hopened] at hslot
  have hle := htest.lt
  have hbody := h.confines_captured hS hP hwf hcovers hopened hj hv hnew hlevel
  have hcond := htest.runs hS hslot.level_le
  have hall : S.Runs proper (fun i t => i.Closes v.slot ∨ Between v.startPc bottom.pc t) v.startPc
      bottom.pc := by
    refine (hbody.mono fun i t ht => ?_).append (hcond.mono fun i t ht => ?_)
    · exact ht.imp_right (·.mono le_rfl (by omega))
    · rcases ht with hin | ⟨-, hop, ha⟩
      · exact Or.inr (hin.mono hstart le_rfl)
      · exact Or.inl ⟨hop, ha ▸ hlevel.1, ha ▸ hlevel.2⟩
  obtain ⟨hjump, rfl⟩ := hclose.jump hlevel.1
  exact ⟨bottom.pc, hlt, hend, hall.seals hS hjump hslot.level_le hlevel⟩

end

/-- A closure is made under locals that have begun. Where one of them is no longer
open at a later point, control closes it before. -/
def Site.Encloses (S : Site) (proper : Prop) (P' : Point) (pc : Nat) (i : Instruction) : Prop :=
  ∃ opened a k, i = .abx .closure a k ∧ S.Makes proper opened k ∧ S.Slotted opened ∧
    ∀ j ∈ opened, ∀ v, S.draft.locals[j]? = some v →
      v.startPc ≤ pc + 1 ∧ (j ∈ P'.opened ∨ S.ClosesBehind proper v pc)

theorem Site.Encloses.mono (h : S.Encloses proper Q pc i)
    (hQ : ∀ j ∈ Q.opened, ∀ v, S.draft.locals[j]? = some v →
      j ∈ P'.opened ∨ S.ClosesBehind proper v pc) : S.Encloses proper P' pc i := by
  obtain ⟨opened, a, k, hi, hmakes, hslot, hall⟩ := h
  refine ⟨opened, a, k, hi, hmakes, hslot, fun j hj v hv => ?_⟩
  obtain ⟨hstart, hlater⟩ := hall j hj v hv
  exact ⟨hstart, hlater.elim (fun hmem => hQ j hmem v hv) Or.inr⟩

/-- What is open at the end of a scope was open before, or belongs to the scope. -/
theorem Lifetimes.mem_new (h : Lifetimes S P Q) (hwf : P.Wf) (hopened : Q.opened = new ++ P.opened)
    (hj : j ∈ Q.opened) : j ∈ P.opened ∨ j ∈ new ∧ P.declared ≤ j := by
  rcases h.new j hj with hold | hge
  · exact Or.inl hold
  · refine Or.inr ⟨(List.mem_append.mp (hopened ▸ hj)).resolve_right fun hold => ?_, hge⟩
    exact Nat.not_lt.mpr hge (hwf j hold)

/-- A closure in a scope, where the locals of the scope are closed before it ends. -/
theorem Site.Encloses.outside (h : S.Encloses proper Q pc i) (hlife : Lifetimes S P Q) (hwf : P.Wf)
    (hopened : Q.opened = new ++ P.opened) (hsame : P'.opened = P.opened)
    (hclosed : ∀ j ∈ new, P.declared ≤ j → ∀ v, S.draft.locals[j]? = some v →
      S.ClosesBehind proper v pc) : S.Encloses proper P' pc i := by
  refine h.mono fun j hj v hv => ?_
  rcases hlife.mem_new hwf hopened hj with hold | ⟨hmem, hnew⟩
  · exact Or.inl (hsame ▸ hold)
  · exact Or.inr (hclosed j hmem hnew v hv)

/-- The open locals have begun. -/
def Site.Started (S : Site) (opened : List Nat) (pc : Nat) : Prop :=
  ∀ j ∈ opened, ∀ v, S.draft.locals[j]? = some v → v.startPc ≤ pc

theorem Site.Started.mono (h : S.Started opened m) (hle : m ≤ pc) : S.Started opened pc :=
  fun j hj v hv => Nat.le_trans (h j hj v hv) hle

theorem Lifetimes.started (h : Lifetimes S P P') (hP : S.Started P.opened P.pc)
    (hle : P.pc ≤ P'.pc) : S.Started P'.opened P'.pc := by
  intro j hj v hv
  rcases h.new j hj with hold | hnew
  · exact Nat.le_trans (hP j hold v hv) hle
  · exact (h.starts j v hnew (h.wf j hj) hv).2.1

theorem Declares.started {startPc : Nat} {names : List String} (h : Declares S startPc names P P')
    (hP : S.Started P.opened pc) (hle : startPc ≤ pc) : S.Started P'.opened pc := by
  intro j hj v hv
  rcases (h.mem_opened j).mp hj with hold | ⟨hge, hlt⟩
  · exact hP j hold v hv
  · rw [(h.local hge hlt hv).2.1]
    exact hle

/-- Code under some locals makes its closures under these. -/
theorem Site.Started.encloses (h : S.Started opened m) (hslot : S.Slotted opened) (hle : m ≤ pc + 1)
    (hopen : opened ⊆ P'.opened) (hmakes : ∃ a k, i = .abx .closure a k ∧ S.Makes proper opened k) :
    S.Encloses proper P' pc i := by
  obtain ⟨a, k, hi, hmakes⟩ := hmakes
  exact ⟨opened, a, k, hi, hmakes, hslot, fun j hj v hv =>
    ⟨Nat.le_trans (h j hj v hv) hle, Or.inl (hopen hj)⟩⟩

/-- Every closure in the code of a statement. -/
theorem Flow.encloses (hS : S.Limited) (h : Flow S proper exit P P') (hP : S.Slotted P.opened)
    (hwf : P.Wf) (hstarted : S.Started P.opened P.pc)
    (hexit : ∀ e, exit = some e → e.close ≤ S.peak) (hge : P.pc ≤ pc)
    (hlt : pc < P'.pc) (hi : S.Has pc i) (hnested : i.nested? ≠ none) :
    S.Encloses proper P' pc i := by
  induction h with
  | skip => omega
  | @seq exit P Q P' hfirst hrest ih ih' =>
    have hlife := hfirst.lifetimes hwf
    by_cases hmid : pc < Q.pc
    · exact (ih hP hwf hstarted hexit hge hmid).mono fun j hj _ _ => Or.inl (hrest.suffix.subset hj)
    · exact ih' (hfirst.slotted hP) hlife.wf (hlife.started hstarted hfirst.le) hexit
        (Nat.not_lt.mp hmid) hlt
  | @declare exit P P' hi' names opened hcode hsees hdecl =>
    have hpc : P'.pc = hi'.pc := by
      rw [hdecl.pc_eq]
      rfl
    have hmakes := (hcode.ordinary hge (hpc ▸ hlt) hi).makes hnested
    rcases hsees with rfl | ⟨rfl, hone⟩
    · exact hstarted.encloses hP (Nat.le_succ_of_le hge) hdecl.opens.suffix.subset hmakes
    · -- a function that sees itself begins right behind its closure
      have hstarted' := hdecl.started (hstarted.mono (by omega)) le_rfl
      exact hstarted'.encloses (hdecl.slotted hP) (by omega) (fun _ hj => hj) hmakes
  | @leave exit P e he hjump =>
    obtain rfl : pc = P.pc := by
      simp only [Point.pc_at, Mark.pc_next] at hlt
      omega
    exact absurd (hjump.nested?_eq_none hi) hnested
  | @ret exit P mid K _ hcode hdo hop =>
    simp only [Point.pc_at, Mark.pc_next] at hlt
    by_cases hin : pc < mid.pc
    · exact hstarted.encloses hP (Nat.le_succ_of_le hge) (fun _ hj => hj)
        ((hcode.ordinary hge hin hi).makes hnested)
    · obtain rfl : pc = mid.pc := by omega
      obtain rfl := hi.unique hdo.code
      exact absurd (Instruction.nested?_of_opcode hop (by simp)) hnested
  | @scope exit P Q P' new hbody hopened hclose hend hsame hdecl ih =>
    by_cases hin : pc < Q.pc
    swap
    · exact absurd ((hclose.jumps_at (Nat.not_lt.mp hin) hlt).2.nested?_eq_none hi) hnested
    have hcovers := Site.Slotted.covers_scope (hopened ▸ hbody.slotted hP) hexit
    have hinner := ih hP hwf hstarted (fun e he => (hcovers e he).1) hge hin
    refine hinner.outside (hbody.lifetimes hwf) hwf hopened hsame fun j hmem hnew v hv => ?_
    exact hbody.closesBehind hS hP hwf hcovers hopened hmem hv (Or.inl hnew) hclose
      (Nat.le_of_eq (hend.eq hmem hv).symm) hin
  | @lastArm exit P P' top htest hbody hsame ih =>
    have hlt' := htest.lt
    by_cases hin : pc < top.pc
    · exact hstarted.encloses hP (Nat.le_succ_of_le hge) hbody.suffix.subset
        (htest.makes_at hge hin hi hnested)
    · exact ih hP hwf (hstarted.mono (show P.pc ≤ top.pc by omega)) hexit (Nat.not_lt.mp hin) hlt
  | @arm exit P Q P' top htest hbody hjump hrest hmid hsame ih ih' =>
    have hlt' := htest.lt
    have hle := hbody.le
    simp only [Point.pc_at] at hle
    by_cases hin : pc < top.pc
    · exact hstarted.encloses hP (Nat.le_succ_of_le hge) (hsame ▸ List.Subset.refl _)
        (htest.makes_at hge hin hi hnested)
    by_cases hin' : pc < Q.pc
    · exact (ih hP hwf (hstarted.mono (show P.pc ≤ top.pc by omega)) hexit (Nat.not_lt.mp hin)
        hin').mono fun j hj _ _ => Or.inl (hrest.suffix.subset hj)
    by_cases heq : pc = Q.pc
    · subst heq
      exact absurd (hjump.nested?_eq_none hi) hnested
    · have hlife := hbody.lifetimes (show (P.at top).Wf from hwf)
      have hstarted' : S.Started Q.opened (Q.pc + 1) := hmid ▸ hstarted.mono (by omega)
      exact ih' (show S.Slotted Q.opened from hmid ▸ hP) hlife.wf hstarted' hexit
        (show Q.pc + 1 ≤ pc by omega) hlt
  | @whileLoop exit P Q P' top back new htest hbody hopened hclose hjump hpoint hend ih =>
    have hlt' := htest.lt
    have hsame : P'.opened = P.opened := by rw [hpoint]
    have hpc : P'.pc = back.pc + 1 := by rw [hpoint, Mark.pc_next]
    have hwf' : (P.at top).Wf := hwf
    have hcovers := Site.Slotted.covers_loop (hopened ▸ hbody.slotted hP) P'.pc
    by_cases hin : pc < top.pc
    · exact hstarted.encloses hP (Nat.le_succ_of_le hge) (hsame ▸ List.Subset.refl _)
        (htest.makes_at hge hin hi hnested)
    by_cases hin' : pc < Q.pc
    · have hinner := ih hP hwf' (hstarted.mono (show P.pc ≤ top.pc by omega))
        (fun e he => (hcovers e he).1) (Nat.not_lt.mp hin) hin'
      refine hinner.outside (hbody.lifetimes hwf') hwf' hopened hsame fun j hmem hnew v hv => ?_
      have hlast := hend.eq hmem hv
      exact hbody.closesBehind hS hP hwf' hcovers hopened hmem hv (Or.inl hnew) hclose
        (by omega) hin'
    by_cases hback : pc < back.pc
    · exact absurd ((hclose.jumps_at (Nat.not_lt.mp hin') hback).2.nested?_eq_none hi) hnested
    · obtain rfl : pc = back.pc := by omega
      exact absurd (hjump.nested?_eq_none hi) hnested
  | @repeatLoop exit P Q P' bottom new hbody hopened htest hclose hend hsame _ ih =>
    have hlife := hbody.lifetimes hwf
    have hQ := hlife.started hstarted hbody.le
    have hcovers := Site.Slotted.covers_loop (hopened ▸ hbody.slotted hP) P'.pc
    by_cases hin : pc < bottom.pc
    swap
    · exact absurd ((hclose.jumps_at (Nat.not_lt.mp hin) hlt).2.nested?_eq_none hi) hnested
    -- the condition is still inside the scope
    have hboth : S.Encloses proper Q pc i := by
      by_cases hin' : pc < Q.pc
      · exact ih hP hwf hstarted (fun e he => (hcovers e he).1) hge hin'
      · exact hQ.encloses (hbody.slotted hP) (by omega) (fun _ hj => hj)
          (htest.makes_at (Nat.not_lt.mp hin') hin hi hnested)
    refine hboth.outside hlife hwf hopened hsame fun j hmem hnew v hv => ?_
    have hstart := hQ j (hopened ▸ List.mem_append_left _ hmem) v hv
    exact hbody.closesBehind_test hS hP hwf hcovers hopened hmem hv (Or.inl hnew) hstart htest
      hclose (Nat.le_of_eq (hend.eq hmem hv).symm) hin
  | @forLoop exit P P₁ P₂ Q P' mid call back state names new enter again extra K hinit hstate hthree
      hhidden hnames henter hways _ _ _ hbody hopened hclose hcall hloop hagain _ _ _ hpoint hend
      hend' ih =>
    have hle := hinit.le
    have hsame : P'.opened = P.opened := by rw [hpoint]
    have hpc : P'.pc = back.pc + 1 := by rw [hpoint, Mark.pc_next]
    by_cases hin : pc < mid.pc
    · exact hstarted.encloses hP (Nat.le_succ_of_le hge) (hsame ▸ List.Subset.refl _)
        ((hinit.ordinary hge hin hi).makes hnested)
    by_cases heq : pc = mid.pc
    · subst heq
      obtain rfl := hi.unique henter.code
      exact absurd (Instruction.nested?_of_ways (by simp [hways])) hnested
    by_cases hin' : pc < Q.pc
    · have hwf₂ : (P₂.at mid.next).Wf := hnames.wf (hstate.wf hwf)
      have hslot₂ : S.Slotted P₂.opened := hnames.slotted (hstate.slotted hP)
      have hbegun : S.Started P₁.opened (mid.pc + 1) :=
        hstate.started (hstarted.mono (by omega)) (Nat.le_succ _)
      have hcovers := Site.Slotted.covers_loop (hopened ▸ hbody.slotted hslot₂) P'.pc
      refine (ih hslot₂ hwf₂ (hnames.started hbegun le_rfl) (fun e he => (hcovers e he).1)
        (show mid.pc + 1 ≤ pc by omega) hin').mono fun j hj v hv => ?_
      have hdecl : P₁.declared = P.declared + state.length := hstate.declared_eq
      rcases (hbody.lifetimes hwf₂).local_for hstate hhidden hnames hj hv with
        hold | hhid | ⟨hge, -, hnew⟩
      · exact Or.inl (hsame ▸ hold)
      · exact Or.inr fun _ hshown => by simp [hhid] at hshown
      · have hmem : j ∈ new := (List.mem_append.mp (hopened ▸ hj)).resolve_right fun hold => by
          have hlow := hwf j hold
          omega
        have hlast := hend'.eq (List.mem_filter.mpr ⟨hmem, by simp; omega⟩) hv
        exact Or.inr (hbody.closesBehind hS hslot₂ hwf₂ hcovers hopened hmem hv hnew hclose
          (Nat.le_of_eq hlast.symm) hin')
    by_cases hcalled : pc < call.pc
    · exact absurd ((hclose.jumps_at (Nat.not_lt.mp hin') hcalled).2.nested?_eq_none hi) hnested
    by_cases hback : pc < back.pc
    · exact hstarted.encloses hP (Nat.le_succ_of_le hge) (hsame ▸ List.Subset.refl _)
        ((hcall.ordinary (Nat.not_lt.mp hcalled) hback hi).makes hnested)
    · obtain rfl : pc = back.pc := by omega
      obtain rfl := hi.unique hloop.code
      exact absurd (Instruction.nested?_of_ways (by simp [hagain])) hnested

/-! ## Functions -/

section

variable {names : List String} (h : Composed S proper names P Q)

include h

theorem Composed.started : S.Started P.opened P.pc := by
  rw [h.pc_eq]
  exact h.params.started (by simp [Site.Started]) le_rfl

/-- The locals of a whole function last until the return at its end. -/
theorem Composed.closesBehind (hj : j ∈ Q.opened) (hv : S.draft.locals[j]? = some v)
    (hlt : pc < Q.pc) : S.ClosesBehind proper v pc := by
  intro _ _
  have hend := h.ends.eq hj hv
  have hnew : P.declared ≤ j ∨ v.startPc = P.pc := by
    rcases (h.body.lifetimes h.wf).new j hj with hparam | hge
    · rcases (h.params.mem_opened j).mp hparam with hnone | ⟨hge, hlt⟩
      · cases hnone
      · rw [h.pc_eq]
        exact Or.inr (h.params.local hge hlt hv).2.1
    · exact Or.inl hge
  have hbody := (h.body.confines h.limited h.slotted h.wf nofun hv hj hnew).closing
    (r := v.slot) nofun
  exact ⟨Q.pc, hlt, by omega, hbody.snoc h.stays_last⟩

/-- Every closure of a function is made under locals that control closes before it
leaves their ranges, where they are captured. -/
theorem Composed.encloses (hi : S.Has pc i) (hnested : i.nested? ≠ none) :
    ∃ opened a k, i = .abx .closure a k ∧ S.Makes proper opened k ∧ S.Slotted opened ∧
      ∀ j ∈ opened, ∀ v, S.draft.locals[j]? = some v →
        v.startPc ≤ pc + 1 ∧ S.ClosesBehind proper v pc := by
  have hsize : pc < Q.pc + 1 := h.size ▸ (Array.getElem?_eq_some_iff.mp hi).1
  by_cases hlast : pc = Q.pc
  · subst hlast
    obtain rfl := hi.unique h.last
    exact absurd (Instruction.nested?_of_opcode (Instruction.opcode?_abc ..) (by simp)) hnested
  have hlt : pc < Q.pc := by omega
  obtain ⟨opened, a, k, hclosure, hmakes, hslot, hall⟩ := h.body.encloses h.limited h.slotted h.wf
    h.started nofun (by rw [h.pc_eq]; exact Nat.zero_le _) hlt hi hnested
  refine ⟨opened, a, k, hclosure, hmakes, hslot, fun j hj v hv => ?_⟩
  obtain ⟨hstart, hopen | hclosed⟩ := hall j hj v hv
  · exact ⟨hstart, h.closesBehind hopen hv hlt⟩
  · exact ⟨hstart, hclosed⟩

end

end LuaLowering
