import LuaLowering.Proofs.Flow.Lifetimes
import LuaLowering.Proofs.Flow.Standing

/-!
# What is closed is done with

A jump closes all upvalues from a level on, whether their locals are captured or
not, so it must not stand where one of these is still to be used. The locals of a
scope have the registers above those around it, so its level is above all that
outlives it. What is closed has ended where the jump lands, or has not begun yet,
with one exception: at the end of a `while` the jump lands on the one that goes
back, which leads in front of the body.
-/

namespace LuaLowering

variable {S : Site} {proper : Prop} {opened new : List Nat} {K K' : Set Nat} {lo hi : Mark}
  {exit : Option Exit} {e : Exit} {P P' Q : Point} {i : Instruction} {v : Local}
  {a j pc base target : Nat}

/-! ## Levels -/

/-- What is open around a scope is below its level. -/
theorem Site.Slotted.below_level (h : S.Slotted (new ++ opened)) (hne : S.level new ≠ 0)
    (hj : j ∈ opened) (hv : S.draft.locals[j]? = some v) : v.slot + 1 < S.level new := by
  have hlt := h.append_left.slot_lt hj hv
  rcases h.level_bounds with hzero | hlevel
  · exact absurd hzero hne
  · omega

/-- The state of a `for` is below the level of its body, because it is hidden. -/
theorem Site.Slotted.level_for {P₁ P₂ : Point} {mid : Mark} {state names : List String}
    (h : S.Slotted (new ++ P.opened)) (hopened : Q.opened = new ++ P.opened)
    (hstate : Declares S mid.pc state (P.at mid) P₁)
    (hhidden : ∀ x ∈ state, x.toList.head? = some '(')
    (hnames : Declares S (mid.pc + 1) names P₁ P₂) (hbody : Lifetimes S (P₂.at mid.next) Q)
    (hne : S.level new ≠ 0) : P₁.opened.length < S.level new := by
  rcases S.level_eq new with hzero | ⟨k, hk, v, hv, hshown, hlevel⟩
  · exact absurd hzero hne
  have hopen : k ∈ Q.opened := hopened ▸ List.mem_append_left _ hk
  rcases hbody.local_for hstate hhidden hnames hopen hv with hold | hhid | ⟨-, hslot, -⟩
  · have hge := (h.slot_mem hk hv).1
    have hlt := h.append_left.slot_lt hold hv
    omega
  · simp [hhid] at hshown
  · omega

/-- A jump that closes from a register on has the level of that register. -/
theorem Site.Jumps.level_eq (hS : S.Limited) (h : S.Jumps .jmp pc a target)
    (hpeak : a ≤ S.peak) (hi : S.Has pc i) (hbase : i.closes? = some base) :
    a = base + 1 := by
  have hmax := hS.peak_le
  rw [h.closes?_eq (by omega) hi] at hbase
  split at hbase
  · cases hbase
  · have heq := Option.some.inj hbase
    omega

/-! ## Released locals -/

/-- At a position a local is not in range, or control leaves its range at once. -/
def Site.Releases (S : Site) (v : Local) (pc : Nat) : Prop :=
  ¬ v.InRange pc ∨ ∃ again, S.Jumps .jmp pc 0 again ∧ again < v.startPc

theorem Site.Releases.of_ended (h : v.endPc ≤ pc) : S.Releases v pc :=
  Or.inl fun hrange => Nat.not_lt.mpr h hrange.2

theorem Site.Releases.of_before (h : pc < v.startPc) : S.Releases v pc :=
  Or.inl fun hrange => Nat.not_lt.mpr hrange.1 h

/-- A jump closes from a register on, and where it lands the locals there are
released. -/
def Site.ReleasesAll (S : Site) (P P' : Point) (pc base : Nat) : Prop :=
  ∃ target, S.Jumps .jmp pc (base + 1) target ∧
    ∀ j v, Among P P' j → S.draft.locals[j]? = some v → base ≤ v.slot → v.InRange pc →
      S.Releases v target

theorem Site.ReleasesAll.widen {R R' : Point} (h : S.ReleasesAll R R' pc base)
    (hnarrow : ∀ j v, Among P P' j → S.draft.locals[j]? = some v → v.InRange pc → Among R R' j) :
    S.ReleasesAll P P' pc base := by
  obtain ⟨target, hjump, hall⟩ := h
  exact ⟨target, hjump, fun j v hj hv hslot hrange => hall j v (hnarrow j v hj hv hrange) hv
    hslot hrange⟩

/-- The jump that closes a scope. -/
theorem Site.Jumps.releasesAll (hS : S.Limited) (h : S.Jumps .jmp pc (S.level new) target)
    (hslot : S.Slotted (new ++ P.opened)) (hi : S.Has pc i) (hbase : i.closes? = some base)
    (hnew : S.level new ≠ 0 → ∀ j v, P.declared ≤ j → j < P'.declared →
      S.draft.locals[j]? = some v → S.level new ≤ v.slot + 1 → S.Releases v target) :
    S.ReleasesAll P P' pc base := by
  have hlevel := h.level_eq hS hslot.level_le hi hbase
  refine ⟨target, hlevel ▸ h, fun j v hj hv hle _ => ?_⟩
  rcases hj with hold | ⟨hge, hlt⟩
  · have hbelow := hslot.below_level (by omega) hold hv
    omega
  · exact hnew (by omega) j v hge hlt hv (by omega)

/-- The jump at the end of a scope lands behind the locals of the scope. -/
theorem ClosesTo.releasesAll (hS : S.Limited) (h : ClosesTo S (S.level new) lo P'.toMark)
    (hslot : S.Slotted (new ++ P.opened)) (hlife : Lifetimes S P P') (hwf : P.Wf)
    (hsame : P'.opened = P.opened) (hge : lo.pc ≤ pc) (hlt : pc < P'.pc) (hi : S.Has pc i)
    (hbase : i.closes? = some base) : S.ReleasesAll P P' pc base := by
  obtain ⟨-, hjump⟩ := h.jumps_at hge hlt
  refine hjump.releasesAll hS hslot hi hbase fun _ j v hlow hhigh hv _ => .of_ended ?_
  refine hlife.ends j v hlow hhigh (fun hmem => ?_) hv
  exact Nat.not_lt.mpr hlow (hwf j (hsame ▸ hmem))

/-- The jump at the end of the body of a `for` lands behind all locals of the loop but
its state, which it does not close. -/
theorem ClosesTo.releasesAll_for {P₁ P₂ : Point} {mid call : Mark} {state names : List String}
    (hS : S.Limited) (h : ClosesTo S (S.level new) Q.toMark call)
    (hslot : S.Slotted (new ++ P.opened)) (hopened : Q.opened = new ++ P.opened) (hwf : P.Wf)
    (hstate : Declares S mid.pc state (P.at mid) P₁)
    (hhidden : ∀ x ∈ state, x.toList.head? = some '(')
    (hnames : Declares S (mid.pc + 1) names P₁ P₂) (hbody : Lifetimes S (P₂.at mid.next) Q)
    (hall : Lifetimes S P Q)
    (hends : ∀ k ∈ new, P₁.declared ≤ k → ∀ v, S.draft.locals[k]? = some v → v.endPc = call.pc)
    (hdecl : P'.declared = Q.declared) (hge : Q.pc ≤ pc) (hlt : pc < call.pc)
    (hi : S.Has pc i) (hbase : i.closes? = some base) : S.ReleasesAll P P' pc base := by
  obtain ⟨-, hjump⟩ := h.jumps_at hge hlt
  refine hjump.releasesAll hS hslot hi hbase fun hne j v hlow hhigh hv hlevel => .of_ended ?_
  have habove := hslot.level_for hopened hstate hhidden hnames hbody hne
  by_cases hstateful : j < P₁.declared
  · have hopen : j ∈ P₁.opened := (hstate.mem_opened j).mpr (Or.inr ⟨hlow, hstateful⟩)
    have hslot₁ : S.Slotted P₁.opened := hstate.slotted hslot.append_left
    have hlt := hslot₁.slot_lt hopen hv
    omega
  by_cases hopen : j ∈ Q.opened
  · have hmem : j ∈ new := (List.mem_append.mp (hopened ▸ hopen)).resolve_right fun hold =>
      Nat.not_lt.mpr hlow (hwf j hold)
    exact Nat.le_of_eq (hends j hmem (Nat.not_lt.mp hstateful) v hv)
  · have hlast := hall.ends j v hlow (hdecl ▸ hhigh) hopen hv
    omega

/-! ## Loops -/

/-- A way out of a loop lands behind a point, and behind all that it closes of what
is open there. -/
structure Exit.Outlasts (S : Site) (e : Exit) (P' : Point) : Prop where
  level : e.close ≤ S.peak
  le : P'.pc ≤ e.target
  ends : e.close ≠ 0 → ∀ j ∈ P'.opened, ∀ v, S.draft.locals[j]? = some v →
    e.close ≤ v.slot + 1 → v.endPc ≤ e.target

theorem Exit.Outlasts.back (h : e.Outlasts S P') (hopen : Q.opened ⊆ P'.opened)
    (hle : Q.pc ≤ P'.pc) : e.Outlasts S Q :=
  ⟨h.level, Nat.le_trans hle h.le, fun hne j hj => h.ends hne j (hopen hj)⟩

/-- A loop is left behind the locals of its body. -/
theorem Site.Slotted.outlasts (h : S.Slotted (new ++ opened)) (hopened : Q.opened = new ++ opened)
    (hle : Q.pc ≤ target)
    (hends : ∀ j ∈ new, ∀ v, S.draft.locals[j]? = some v → v.endPc ≤ target) :
    ∀ e, some (Exit.mk target (S.level new)) = some e → e.Outlasts S Q := by
  intro e he
  obtain rfl := Option.some.inj he
  refine ⟨h.level_le, hle, fun hne j hj v hv hclose => ?_⟩
  rcases List.mem_append.mp (hopened ▸ hj) with hmem | hold
  · exact hends j hmem v hv
  · exact absurd (h.below_level hne hold hv) (Nat.not_lt.mpr hclose)

/-- So it is from inside one more scope. -/
theorem Exit.Outlasts.inside (he : e.Outlasts S P') (h : S.Slotted (new ++ P.opened))
    (hopened : Q.opened = new ++ P.opened) (hle : Q.pc ≤ P'.pc) (hend : S.EndAt P'.pc new)
    (hsame : P'.opened = P.opened) : (e.inside (S.level new)).Outlasts S Q := by
  refine ⟨joinClose_le h.level_le he.level, Nat.le_trans hle he.le, fun hne j hj v hv hclose => ?_⟩
  rcases List.mem_append.mp (hopened ▸ hj) with hmem | hold
  · exact Nat.le_trans (Nat.le_of_eq (hend.eq hmem hv)) he.le
  · -- what is around the scope is below its level, so it is closed by the exit
    have hlevel : S.level new = 0 ∨ v.slot + 1 < S.level new := by
      by_cases hzero : S.level new = 0
      · exact Or.inl hzero
      · exact Or.inr (h.below_level hzero hold hv)
    have hexit : e.close ≠ 0 ∧ e.close ≤ v.slot + 1 := by
      simp only [Exit.inside] at hne hclose
      grind [joinClose]
    exact he.ends hexit.1 j (hsame ▸ hold) v hv hexit.2

/-! ## Statements -/

/-- Every closing jump in the code of a statement. -/
theorem Flow.releases (hS : S.Limited) (h : Flow S proper exit P P') (hP : S.Slotted P.opened)
    (hwf : P.Wf) (hexit : ∀ e, exit = some e → e.Outlasts S P') (hge : P.pc ≤ pc) (hlt : pc < P'.pc)
    (hi : S.Has pc i) (hbase : i.closes? = some base) : S.ReleasesAll P P' pc base := by
  have hcode : ∀ {opened K K'} {lo hi' : Mark}, Code S proper opened K lo hi' K' → lo.pc ≤ pc →
      ¬ pc < hi'.pc := by
    intro opened K K' lo hi' hcode hge hlt
    have hnone := (hcode.ordinary hge hlt hi).1
    simp [hnone] at hbase
  have hplain : ∀ {target}, ¬ S.Jumps .jmp pc 0 target := by
    intro target hjump
    have hnone := hjump.closes?_eq (by decide) hi
    simp [hnone] at hbase
  have htested : ∀ {opened target} {lo hi' : Mark}, Tested S proper opened 0 target lo hi' →
      lo.pc ≤ pc → ¬ pc < hi'.pc := by
    intro opened target lo hi' htest hge hlt
    rcases htest.ordinary hge hlt hi with hordinary | ⟨-, hjump⟩
    · simp [hordinary.1] at hbase
    · exact hplain hjump
  induction h with
  | skip => omega
  | @seq exit P Q P' hfirst hrest ih ih' =>
    have hlife := hfirst.lifetimes hwf
    have hlater := hrest.lifetimes hlife.wf
    by_cases hmid : pc < Q.pc
    · refine (ih hP hwf (fun e he => (hexit e he).back hrest.suffix.subset hrest.le) hge hmid).widen
        ?_
      intro j v hj hv hrange
      exact (Lifetimes.refl S (m := P.toMark) hwf).narrow (List.suffix_refl _) (Or.inl hlater) hge
        hmid hj hv hrange
    · refine (ih' (hfirst.slotted hP) hlife.wf hexit (Nat.not_lt.mp hmid) hlt).widen ?_
      intro j v hj hv hrange
      exact hlife.narrow hfirst.suffix (Or.inr le_rfl) (Nat.not_lt.mp hmid) hlt hj hv hrange
  | @declare exit P P' hi' names opened hload hsees hdecl =>
    have hpc : P'.pc = hi'.pc := by
      rw [hdecl.pc_eq]
      rfl
    exact absurd (hpc ▸ hlt) (hcode hload hge)
  | @leave exit P e he hjump =>
    obtain rfl : pc = P.pc := by
      simp only [Point.pc_at, Mark.pc_next] at hlt
      omega
    have hout := hexit e he
    have hlevel := hjump.level_eq hS hout.level hi hbase
    refine ⟨e.target, hlevel ▸ hjump, fun j v hj hv hslot _ => .of_ended ?_⟩
    have hopen : j ∈ P.opened := hj.resolve_right fun hnew => by
      have hdecl : (P.at P.next).declared = P.declared := rfl
      omega
    exact hout.ends (by omega) j hopen v hv (by omega)
  | @ret exit P mid K _ hvalues hdo hop =>
    simp only [Point.pc_at, Mark.pc_next] at hlt
    have hge' := hcode hvalues hge
    obtain rfl : pc = mid.pc := by omega
    obtain rfl := hi.unique hdo.code
    simp [Instruction.closes?_of_opcode hop (by simp)] at hbase
  | @scope exit P Q P' new hbody hopened hclose hend hsame hdecl ih =>
    have hslot : S.Slotted (new ++ P.opened) := hopened ▸ hbody.slotted hP
    have hlife := (Flow.scope hbody hopened hclose hend hsame hdecl).lifetimes hwf
    by_cases hin : pc < Q.pc
    · have hinner : ∀ e, exit.map (·.inside (S.level new)) = some e → e.Outlasts S Q := by
        intro e he
        obtain ⟨e', he', rfl⟩ := Option.map_eq_some_iff.mp he
        exact (hexit e' he').inside hslot hopened hclose.le hend hsame
      refine (ih hP hwf hinner hge hin).widen fun j v hj _ _ => ?_
      rw [Among, ← hdecl]
      exact hj
    · exact hclose.releasesAll hS hslot hlife hwf hsame (Nat.not_lt.mp hin) hlt hi hbase
  | @lastArm exit P P' top htest hbody _ ih =>
    exact (ih hP hwf hexit (Nat.not_lt.mp (htested htest hge)) hlt).widen fun j v hj _ _ => hj
  | @arm exit P Q P' top htest hbody hjump hrest hmid hsame ih ih' =>
    have htop := Nat.not_lt.mp (htested htest hge)
    have hlt' := htest.lt
    have hle := hrest.le
    simp only [Point.pc_at, Mark.pc_next] at hle
    have hlife : Lifetimes S P Q := (hbody.lifetimes (show (P.at top).Wf from hwf)).behind
      (by omega)
    have hlater : Lifetimes S Q P' :=
      (hrest.lifetimes (show (Q.at Q.next).Wf from hlife.wf)).behind (Nat.le_succ _)
    by_cases hin : pc < Q.pc
    · have hinner := fun e he => (hexit e he).back (Q := Q) hrest.suffix.subset (by omega)
      refine (ih hP hwf hinner htop hin).widen fun j v hj hv hrange => ?_
      exact (Lifetimes.refl S (m := P.toMark) hwf).narrow (List.suffix_refl _) (Or.inl hlater) hge
        hin hj hv hrange
    by_cases heq : pc = Q.pc
    · subst heq
      exact absurd hjump hplain
    · have hQ : S.Slotted Q.opened := hmid ▸ hP
      refine (ih' hQ hlife.wf hexit (show Q.pc + 1 ≤ pc by omega) hlt).widen fun j v hj hv hrange =>
        ?_
      exact hlife.narrow (hmid ▸ List.suffix_refl _) (Or.inr le_rfl) (Nat.not_lt.mp hin) hlt hj
        hv hrange
  | @whileLoop exit P Q P' top back new htest hbody hopened hclose hjump hpoint hend ih =>
    have htop := Nat.not_lt.mp (htested htest hge)
    have hle := hclose.le
    have hpc : P'.pc = back.pc + 1 := by rw [hpoint, Mark.pc_next]
    have hslot : S.Slotted (new ++ P.opened) := hopened ▸ hbody.slotted hP
    have hwhile : Flow S proper exit P P' := .whileLoop htest hbody hopened hclose hjump hpoint hend
    have hlife := hwhile.lifetimes hwf
    by_cases hin : pc < Q.pc
    · refine (ih hP hwf (hslot.outlasts hopened (by omega) fun j hj v hv =>
        Nat.le_of_eq (hend.eq hj hv)) htop hin).widen fun j v hj _ _ => ?_
      rw [hpoint] at hj
      exact hj
    by_cases hend' : pc < back.pc
    · obtain ⟨-, hjump'⟩ := hclose.jumps_at (Nat.not_lt.mp hin) hend'
      refine hjump'.releasesAll hS hslot hi hbase fun _ j v hlow hhigh hv _ => ?_
      exact Or.inr ⟨P.pc, hjump, (hlife.starts j v hlow hhigh hv).1⟩
    · obtain rfl : pc = back.pc := by omega
      exact absurd hjump hplain
  | @repeatLoop exit P Q P' bottom new hbody hopened htest hclose hend hsame hdecl ih =>
    have hlt' := htest.lt
    have hle := hclose.le
    have hslot : S.Slotted (new ++ P.opened) := hopened ▸ hbody.slotted hP
    have hrepeat : Flow S proper exit P P' :=
      .repeatLoop hbody hopened htest hclose hend hsame hdecl
    have hlife := hrepeat.lifetimes hwf
    by_cases hin : pc < Q.pc
    · refine (ih hP hwf (hslot.outlasts hopened (by omega) fun j hj v hv =>
        Nat.le_of_eq (hend.eq hj hv)) hge hin).widen fun j v hj _ _ => ?_
      rw [Among, ← hdecl]
      exact hj
    by_cases hcond : pc < bottom.pc
    · rcases htest.ordinary (Nat.not_lt.mp hin) hcond hi with hordinary | ⟨-, hjump⟩
      · simp [hordinary.1] at hbase
      · refine hjump.releasesAll hS hslot hi hbase fun _ j v hlow hhigh hv _ => .of_before ?_
        exact (hlife.starts j v hlow hhigh hv).1
    · exact hclose.releasesAll hS hslot hlife hwf hsame (Nat.not_lt.mp hcond) hlt hi hbase
  | @forLoop exit P P₁ P₂ Q P' mid call back state names new enter again extra K hinit hstate hthree
      hhidden hnames henter hways hquiet _ _ hbody hopened hclose hcall hloop hagain _ _ _ hpoint
      hend hend' ih =>
    have hfirst := Nat.not_lt.mp (hcode hinit hge)
    have hpc : P'.pc = back.pc + 1 := by rw [hpoint, Mark.pc_next]
    have hle := hinit.le
    have hle' := hclose.le
    have hle'' := hcall.le
    have hle₁ := hbody.le
    simp only [Point.pc_at, Mark.pc_next] at hle₁
    have hslot₁ : S.Slotted P₁.opened := hstate.slotted hP
    have hslot₂ : S.Slotted P₂.opened := hnames.slotted hslot₁
    have hslot : S.Slotted (new ++ P.opened) := hopened ▸ hbody.slotted hslot₂
    have hsuffix : P.opened <:+ P₂.opened :=
      (show P.opened <:+ P₁.opened from hstate.opens.suffix).trans hnames.opens.suffix
    have hlife := hstate.lifetimes_for hnames hwf (hinit.lt (by decide))
    have hinner := hbody.lifetimes hlife.wf
    have hdecl : P₁.declared = P.declared + state.length := hstate.declared_eq
    have hends : ∀ k ∈ new, P.declared + 3 ≤ k → ∀ v, S.draft.locals[k]? = some v →
        v.endPc = call.pc := by
      intro k hk hge v hv
      exact hend'.eq (List.mem_filter.mpr ⟨hk, by simpa using hge⟩) hv
    by_cases heq : pc = mid.pc
    · subst heq
      obtain rfl := hi.unique henter.code
      simp [hquiet] at hbase
    by_cases hin : pc < Q.pc
    · have hlast : ∀ k ∈ new, ∀ v, S.draft.locals[k]? = some v → v.endPc ≤ P'.pc := by
        intro k hk v hv
        by_cases hlow : k < P.declared + 3
        · exact Nat.le_of_eq (hend.eq (List.mem_filter.mpr ⟨hk, by simpa using hlow⟩) hv)
        · have hcall := hends k hk (Nat.not_lt.mp hlow) v hv
          omega
      have hafter : mid.pc + 1 ≤ pc := by omega
      refine (ih hslot₂ hlife.wf (hslot.outlasts hopened (by omega) hlast) hafter hin).widen
        fun j v hj hv hrange => ?_
      exact hlife.narrow hsuffix (Or.inr (by rw [hpoint])) hafter hin hj hv hrange
    by_cases hcalled : pc < call.pc
    · have hall : Lifetimes S P Q := hlife.trans hinner hbody.suffix hsuffix.length_le
        (show P.pc ≤ mid.pc + 1 by omega) hbody.le
      exact hclose.releasesAll_for hS hslot hopened hwf hstate hhidden hnames hinner hall
        (fun k hk hge => hends k hk (by omega)) (by rw [hpoint]) (Nat.not_lt.mp hin)
        hcalled hi hbase
    have hback := Nat.not_lt.mp (hcode hcall (Nat.not_lt.mp hcalled))
    obtain rfl : pc = back.pc := by omega
    obtain rfl := hi.unique hloop.code
    simp [Instruction.closes?_of_ways (i := i) (by simp [hagain])] at hbase

/-! ## Functions -/

/-- A closing jump anywhere in a function. -/
theorem Composed.releases {names : List String} (h : Composed S proper names P Q) (hi : S.Has pc i)
    (hbase : i.closes? = some base) : ∃ target, S.Jumps .jmp pc (base + 1) target ∧
      ∀ v ∈ S.draft.locals, base ≤ v.slot → v.InRange pc → S.Releases v target := by
  have hsize : pc < Q.pc + 1 := h.size ▸ (Array.getElem?_eq_some_iff.mp hi).1
  by_cases hlast : pc = Q.pc
  · subst hlast
    obtain rfl := hi.unique h.last
    simp [Instruction.closes?_of_opcode (Instruction.opcode?_abc ..)] at hbase
  obtain ⟨target, hjump, hall⟩ := h.body.releases h.limited h.slotted h.wf nofun
    (by rw [h.pc_eq]; exact Nat.zero_le _) (by omega) hi hbase
  refine ⟨target, hjump, fun v hv => ?_⟩
  obtain ⟨j, hj⟩ := Array.mem_iff_getElem?.mp hv
  have hlt : j < Q.declared := h.locals ▸ (Array.getElem?_eq_some_iff.mp hj).1
  refine hall j v ?_ hj
  by_cases hparam : j < P.declared
  · exact Or.inl ((h.params.mem_opened j).mpr (Or.inr ⟨Nat.zero_le _, hparam⟩))
  · exact Or.inr ⟨Nat.not_lt.mp hparam, hlt⟩

end LuaLowering
