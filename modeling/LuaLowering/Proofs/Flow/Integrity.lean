import Mathlib.Logic.Relation
import LuaLowering.Proofs.Flow.Function

/-!
# Where control can go

Structured code hands control on from one part to the next. It follows by induction
over the structure that no instruction leads out of the part it belongs to, except
to its end or out of a loop, and for a whole function that leaves no way out of the
code but a return. Along the way the induction collects what is known of each
instruction, and with which level the jumps out of loops close upvalues.
-/

namespace LuaLowering

variable {op : Opcode} {l h m n level : Nat} {t : Int} {extra : List Span} {new : List Nat}
  {exit : Option Exit} {P Q : Point} {names : List String}

/-! ## Instructions that go on somewhere -/

/-- The instructions that skip the next one or not. -/
def Opcode.tests : Opcode → Bool
  | .eq | .lt | .le | .test | .testSet => true
  | _ => false

theorem Opcode.ways_of_tests (h : op.tests = true) (a c : Nat) :
    ∃ extra, op.ways a c = [(.next, extra), (.skip, [])] := by
  cases op <;> first | exact ⟨_, rfl⟩ | cases h

theorem Instruction.opcode?_of_ways {i : Instruction} (h : i.ways ≠ []) :
    ∃ op, i.opcode? = some op := by
  cases hop : i.opcode? with
  | none =>
    rw [Instruction.ways, hop] at h
    exact absurd rfl h
  | some op => exact ⟨op, rfl⟩

/-- A closure goes on at the next instruction. -/
theorem Instruction.nested?_of_ways {i : Instruction} (h : i.ways ≠ [(.next, [])]) :
    i.nested? = none := by
  cases hop : i.opcode? with
  | none => rw [Instruction.nested?, hop, Option.bind_none]
  | some op =>
    rw [Instruction.ways_eq hop] at h
    rw [Instruction.nested?_eq hop, Opcode.nested?_of_ne]
    intro hclosure
    subst hclosure
    exact h rfl

/-- What stands at a position goes on only as `ok` says. A test has a jump behind
it. -/
inductive Site.Stays (S : Site) (proper : Prop) (ok : Instruction → Int → Prop) (pc : Nat) : Prop
  | intro {i : Instruction} {op : Opcode} {K : Set Nat} (hdo : S.Does proper pc i K)
      (hop : i.opcode? = some op) (htargets : ∀ t ∈ i.targets pc, ok i t)
      (htest : op.tests = true → ∃ j, S.Has (pc + 1) j ∧ j.opcode? = some .jmp)

/-- So does all that stands between two positions. -/
def Site.Runs (S : Site) (proper : Prop) (ok : Instruction → Int → Prop) (lo hi : Nat) : Prop :=
  ∀ pc, lo ≤ pc → pc < hi → S.Stays proper ok pc

/-- A target between two positions, or at the second. -/
def Between (lo hi : Nat) (t : Int) : Prop := lo ≤ t ∧ t ≤ hi

variable {S : Site} {proper : Prop} {ok ok' : Instruction → Int → Prop} {pc a target : Nat}
  {i : Instruction} {K K' : Set Nat} {opened : List Nat} {lo hi : Mark}

theorem Between.mono {l' h' : Nat} (ht : Between l h t) (hl : l' ≤ l) (hh : h ≤ h') :
    Between l' h' t := by
  rw [Between] at ht ⊢
  omega

namespace Site.Runs

variable {l m h : Nat}

theorem mono (hr : S.Runs proper ok l h) (hok : ∀ i t, ok i t → ok' i t) :
    S.Runs proper ok' l h := by
  intro pc hge hlt
  obtain ⟨hdo, hop, htargets, htest⟩ := hr pc hge hlt
  exact ⟨hdo, hop, fun t ht => hok _ t (htargets t ht), htest⟩

theorem append (hr : S.Runs proper ok l m) (hr' : S.Runs proper ok m h) : S.Runs proper ok l h := by
  intro pc hge hlt
  rcases Nat.lt_or_ge pc m with hmid | hmid
  · exact hr pc hge hmid
  · exact hr' pc hmid hlt

theorem one (hs : S.Stays proper ok pc) : S.Runs proper ok pc (pc + 1) := by
  intro pc' hge hlt
  obtain rfl : pc' = pc := by omega
  exact hs

theorem snoc (hr : S.Runs proper ok l pc) (hs : S.Stays proper ok pc) :
    S.Runs proper ok l (pc + 1) := hr.append (one hs)

end Site.Runs

namespace Site.Does

/-- An instruction with one way on is no test. -/
theorem stays (hdo : S.Does proper pc i K) {turn : Turn} (hways : i.ways = [(turn, extra)])
    (hok : ok i (i.target pc turn)) : S.Stays proper ok pc := by
  obtain ⟨op, hop⟩ := Instruction.opcode?_of_ways (i := i) (by simp [hways])
  refine ⟨hdo, hop, ?_, fun htest => ?_⟩
  · simpa [Instruction.targets, hways] using hok
  · obtain ⟨e, he⟩ := Opcode.ways_of_tests htest i.a i.c
    rw [← Instruction.ways_eq hop, hways] at he
    cases he

/-- The instruction at the end of a loop. -/
theorem stays_loop (hdo : S.Does proper pc i K) (hways : i.ways = [(.next, []), (.jump, extra)])
    (hnext : ok i (pc + 1)) (hback : ok i (i.target pc .jump)) : S.Stays proper ok pc := by
  obtain ⟨op, hop⟩ := Instruction.opcode?_of_ways (i := i) (by simp [hways])
  refine ⟨hdo, hop, ?_, fun htest => ?_⟩
  · simpa [Instruction.targets, hways, Instruction.target] using ⟨hnext, hback⟩
  · obtain ⟨e, he⟩ := Opcode.ways_of_tests htest i.a i.c
    rw [← Instruction.ways_eq hop, hways] at he
    simp at he

/-- A test goes on with the jump behind it, or past that. -/
theorem stays_test (hdo : S.Does proper pc i K) (hop : i.opcode? = some op)
    (htest : op.tests = true) (hjump : S.Jumps .jmp (pc + 1) a target) (hnext : ok i (pc + 1))
    (hskip : ok i (pc + 2)) : S.Stays proper ok pc := by
  refine ⟨hdo, hop, ?_, fun _ => ⟨_, hjump.2, Instruction.opcode?_asbx ..⟩⟩
  obtain ⟨e, he⟩ := Opcode.ways_of_tests htest i.a i.c
  rw [Instruction.targets, Instruction.ways_eq hop, he]
  simpa [Instruction.target] using ⟨hnext, hskip⟩

end Site.Does

/-- A jump that closes upvalues names the lowest register of theirs. -/
theorem Site.Jumps.within (hS : S.Limited) (h : S.Jumps .jmp pc a target)
    (ha : a ≤ S.peak) :
    S.Does proper pc (.asbx .jmp a ((target : Int) - pc - 1)) K := by
  have hmax := hS.peak_le
  have hi := Instruction.opcode?_asbx .jmp a ((target : Int) - pc - 1)
  have ha' : (Instruction.asbx .jmp a ((target : Int) - pc - 1)).a = a := by
    rw [Instruction.a_asbx, Nat.mod_eq_of_lt (by omega)]
  refine .of_opcode h.2 hi (by simp) ?_ ?_ ?_ ?_ ?_ ?_ <;>
    simp [Opcode.closes?, Opcode.nested?, ha']
  omega

theorem Site.Jumps.stays (hS : S.Limited) (h : S.Jumps .jmp pc a target)
    (ha : a ≤ S.peak)
    (hok : ∀ i : Instruction, i.opcode? = some .jmp → i.a = a → ok i target) :
    S.Stays proper ok pc := by
  have hmax := hS.peak_le
  have hlt : a < 0x100 := by omega
  refine (h.within (K := ∅) hS ha).stays (ways_jump hlt (by simp)) ?_
  rw [h.target_eq]
  exact hok _ (Instruction.opcode?_asbx ..) (by rw [Instruction.a_asbx, Nat.mod_eq_of_lt hlt])

/-! ## Expressions -/

/-- Control leaves the code of an expression at its end. -/
theorem Code.runs (hS : S.Limited) (h : Code S proper opened K lo hi K') :
    S.Runs proper (fun _ => Between lo.pc hi.pc) lo.pc hi.pc := by
  induction h with
  | drop =>
    intro pc hge hlt
    omega
  | seq hfirst hrest ih ih' =>
    have hle := hfirst.le
    have hle' := hrest.le
    exact (ih.mono fun _ _ ht => ht.mono le_rfl hle').append
      (ih'.mono fun _ _ ht => ht.mono hle le_rfl)
  | step hdo hways =>
    refine .one (hdo.stays hways ?_)
    simp only [Between, Instruction.target, Mark.pc_next]
    omega
  | far hdo hop hextra hop' =>
    have hfirst := Instruction.ways_eq hop
    have hsecond := Instruction.ways_eq hop'
    refine .snoc (.one (hdo.stays hfirst ?_)) (hextra.stays hsecond ?_) <;>
      · simp only [Between, Instruction.target, Mark.pc_next]
        omega
  | closure hdo =>
    refine .one (hdo.stays (Instruction.ways_eq (Instruction.opcode?_abx ..)) ?_)
    simp only [Between, Instruction.target]
    omega
  | either hdo hop hjump hrest _ ih =>
    have hle := hrest.le
    simp only [Mark.pc_next] at hle ih
    refine (Site.Runs.snoc (.one (hdo.stays_test hop rfl hjump ?_ ?_))
      (hjump.stays hS (Nat.zero_le _) fun _ _ _ => ?_)).append
      (ih.mono fun _ _ ht => ht.mono (by omega) le_rfl) <;>
      · simp only [Between]
        omega
  | @compare K lo i j k op hdo hop htest hjump hfalse hskip htrue hnext =>
    have htests : op.tests = true := by rcases htest with rfl | rfl | rfl <;> rfl
    refine Site.Runs.snoc (.snoc (.snoc (.one (hdo.stays_test hop htests hjump ?_ ?_))
      (hjump.stays hS (Nat.zero_le _) fun _ _ _ => ?_)) (hfalse.stays hskip ?_))
      (htrue.stays hnext ?_) <;>
      · simp only [Between, Instruction.target]
        omega

/-- A condition may be left by its jump as well. -/
theorem Tested.runs (hS : S.Limited) (h : Tested S proper opened a target lo hi)
    (ha : a ≤ S.peak) :
    S.Runs proper (fun i t => Between lo.pc hi.pc t ∨
      t = target ∧ i.opcode? = some .jmp ∧ i.a = a) lo.pc hi.pc := by
  obtain ⟨hcond, -, hdo, hop, hjump⟩ := h
  have hle := hcond.le
  refine Site.Runs.snoc (.snoc ((hcond.runs hS).mono fun _ _ ht => Or.inl (ht.mono le_rfl ?_))
    (hdo.stays_test hop rfl hjump ?_ ?_)) (hjump.stays hS ha fun i hop ha => Or.inr ⟨rfl, hop, ha⟩)
  · simp only [Mark.pc_next]
    omega
  · left
    simp only [Between, Mark.pc_next]
    omega
  · left
    simp only [Between, Mark.pc_next]
    omega

/-- A jump that stays in the stretch around a condition. -/
theorem Tested.runs_between (hS : S.Limited) (hcond : Tested S proper opened a target lo hi)
    (ha : a ≤ S.peak) (hl : l ≤ lo.pc) (hh : hi.pc ≤ h) (htl : l ≤ target)
    (hth : target ≤ h) : S.Runs proper (fun _ => Between l h) lo.pc hi.pc := by
  refine (hcond.runs hS ha).mono fun i t ht => ?_
  rcases ht with ht | ⟨rfl, -, -⟩
  · exact ht.mono hl hh
  · exact ⟨Int.ofNat_le.mpr htl, Int.ofNat_le.mpr hth⟩

/-! ## Close levels -/

/-- The locals of an inner scope have the registers after those of the outer ones. -/
theorem Site.Slotted.slot_mem (h : S.Slotted (new ++ opened)) {k : Nat} {v : Local} (hk : k ∈ new)
    (hv : S.draft.locals[k]? = some v) :
    opened.length ≤ v.slot ∧ v.slot < opened.length + new.length := by
  induction new with
  | nil => cases hk
  | cons j new ih =>
    obtain ⟨⟨w, hw, hslot⟩, -, hrest⟩ := h
    have hslot : w.slot = new.length + opened.length := hslot.trans List.length_append
    rcases List.mem_cons.mp hk with rfl | hk
    · obtain rfl := Option.some.inj (hv.symm.trans hw)
      rw [List.length_cons]
      omega
    · obtain ⟨hge, hlt⟩ := ih hrest hk
      rw [List.length_cons]
      omega

/-- A scope is closed above the locals around it. -/
theorem Site.Slotted.level_bounds (h : S.Slotted (new ++ opened)) :
    S.level new = 0 ∨ opened.length < S.level new ∧ S.level new ≤ (new ++ opened).length := by
  rcases S.level_eq new with hzero | ⟨k, hk, v, hv, -, hlevel⟩
  · exact Or.inl hzero
  · have hslot := h.slot_mem hk hv
    rw [List.length_append]
    omega

theorem Site.Slotted.level_le (h : S.Slotted (new ++ opened)) :
    S.level new ≤ S.peak := by
  have hle := h.length_le
  rcases h.level_bounds with hzero | hlevel
  · omega
  · omega

/-- The outer of two scopes is closed with the inner one. -/
theorem joinClose_covers (hn : n ≠ 0) : joinClose m n ≠ 0 ∧ joinClose m n ≤ n := by
  grind [joinClose]

/-! ## Statements -/

/-- An instruction is a jump out of a loop, which closes at least what the exit says. -/
def Instruction.Leaves (i : Instruction) (exit : Option Exit) (t : Int) : Prop :=
  ∃ e, exit = some e ∧ t = e.target ∧ i.opcode? = some .jmp ∧
    (e.close ≠ 0 → i.a ≠ 0 ∧ i.a ≤ e.close)

/-- What leaves a loop from inside a scope leaves it from outside. -/
theorem Instruction.Leaves.outside (h : i.Leaves (exit.map (·.inside level)) t) :
    i.Leaves exit t := by
  obtain ⟨e', he, ht, hop, hclose⟩ := h
  obtain ⟨e, rfl, rfl⟩ := Option.map_eq_some_iff.mp he
  refine ⟨e, rfl, ht, hop, fun hne => ?_⟩
  have hjoin : joinClose level e.close ≠ 0 ∧ joinClose level e.close ≤ e.close :=
    joinClose_covers hne
  obtain ⟨hpos, hle⟩ := hclose hjoin.1
  exact ⟨hpos, Nat.le_trans hle hjoin.2⟩

/-- What leaves a loop lands where the loop ends. -/
theorem Instruction.Leaves.between {close : Nat} (ht : i.Leaves (some ⟨target, close⟩) t)
    (hl : l ≤ target) (hh : target ≤ h) : Between l h t := by
  obtain ⟨e, he, rfl, -, -⟩ := ht
  obtain rfl := Option.some.inj he
  exact ⟨Int.ofNat_le.mpr hl, Int.ofNat_le.mpr hh⟩

/-- A scope is closed by nothing, or by a jump to the next instruction. -/
theorem ClosesTo.stays (hS : S.Limited) (h : ClosesTo S level lo hi)
    (hlevel : level ≤ S.peak) (hok : ∀ i, ok i hi.pc) :
    S.Runs proper ok lo.pc hi.pc := by
  rcases h.jumps with rfl | ⟨hjump, rfl⟩
  · intro pc hge hlt
    omega
  · exact .one (hjump.stays hS hlevel fun i _ _ => hok i)

theorem Flow.level_le (h : Flow S proper exit P Q) (hP : S.Slotted P.opened)
    (hopened : Q.opened = new ++ opened) : S.level new ≤ S.peak := by
  have hslot := h.slotted hP
  rw [hopened] at hslot
  exact hslot.level_le

/-- Control leaves the code of a statement at its end, or by a jump out of the loop
around it. -/
theorem Flow.runs (hS : S.Limited) {P' : Point} (h : Flow S proper exit P P')
    (hP : S.Slotted P.opened) (hexit : ∀ e, exit = some e → e.close ≤ S.peak) :
    S.Runs proper (fun i t => Between P.pc P'.pc t ∨ i.Leaves exit t) P.pc P'.pc := by
  induction h with
  | skip =>
    intro pc hge hlt
    omega
  | seq hfirst hrest ih ih' =>
    have hle := hfirst.le
    have hle' := hrest.le
    exact ((ih hP hexit).mono fun _ _ ht => ht.imp_left (·.mono le_rfl hle')).append
      ((ih' (hfirst.slotted hP) hexit).mono fun _ _ ht => ht.imp_left (·.mono hle le_rfl))
  | declare hcode _ hdecl =>
    rw [hdecl.pc_eq]
    exact (hcode.runs hS).mono fun _ _ ht => Or.inl ht
  | @leave exit P e he hjump =>
    refine .one (hjump.stays hS (hexit e he) fun i hop ha => Or.inr
      ⟨e, he, rfl, hop, fun hne => ?_⟩)
    exact ⟨ha ▸ hne, Nat.le_of_eq ha⟩
  | ret hcode hdo hop =>
    have hle := hcode.le
    refine .snoc ((hcode.runs hS).mono fun _ _ ht => Or.inl (ht.mono le_rfl (Nat.le_succ _))) ?_
    refine ⟨hdo, hop, ?_, nofun⟩
    simp [Instruction.targets, Instruction.ways_eq hop]
  | scope hbody hopened hclose _ _ _ ih =>
    have hle := hclose.le
    have hlevel := hbody.level_le hP hopened
    have hinner := ih hP fun e he => by
      obtain ⟨e', he', rfl⟩ := Option.map_eq_some_iff.mp he
      exact joinClose_le hlevel (hexit e' he')
    have hle' := hbody.le
    refine (hinner.mono fun i t ht => ?_).append (hclose.stays hS hlevel fun i => Or.inl ?_)
    · exact ht.imp (·.mono le_rfl hle) Instruction.Leaves.outside
    · exact ⟨by omega, by omega⟩
  | @lastArm exit P P' top htest hbody _ ih =>
    have hlt := htest.lt
    have hle := hbody.le
    simp only [Point.pc_at] at hle
    have hcond := htest.runs_between hS (Nat.zero_le _) le_rfl hle (by omega) le_rfl
    exact (hcond.mono fun _ _ ht => Or.inl ht).append
      ((ih hP hexit).mono fun _ _ ht => ht.imp_left
        (·.mono (by simp only [Point.pc_at]; omega) le_rfl))
  | @arm exit P Q P' top htest hbody hjump hrest hmid _ ih ih' =>
    have hlt := htest.lt
    have hle := hbody.le
    have hle' := hrest.le
    simp only [Point.pc_at, Mark.pc_next] at hle hle'
    have hQ : S.Slotted Q.opened := hmid ▸ hP
    have hcond := htest.runs_between (h := P'.pc) hS (Nat.zero_le _) le_rfl (by omega)
      (by omega) hle'
    have hover : S.Stays proper (fun i t => Between P.pc P'.pc t ∨ i.Leaves exit t) Q.pc :=
      hjump.stays hS (Nat.zero_le _) fun _ _ _ => Or.inl ⟨by omega, by omega⟩
    have hfirst := (ih hP hexit).mono fun _ _ ht => ht.imp_left
        (·.mono (show P.pc ≤ top.pc by omega) (show Q.pc ≤ P'.pc by omega))
    have hsecond := (ih' hQ hexit).mono fun _ _ ht => ht.imp_left
        (·.mono (show P.pc ≤ Q.pc + 1 by omega) le_rfl)
    exact ((hcond.mono fun _ _ ht => Or.inl ht).append (hfirst.snoc hover)).append hsecond
  | @whileLoop exit P Q P' top back new htest hbody hopened hclose hjump hpoint _ ih =>
    have hlt := htest.lt
    have hle := hbody.le
    have hle' := hclose.le
    simp only [Point.pc_at] at hle
    have hend : P'.pc = back.pc + 1 := by rw [hpoint, Mark.pc_next]
    have hlevel := hbody.level_le hP hopened
    have hinner := ih hP fun e he => by
      obtain rfl := Option.some.inj he
      exact hlevel
    have hcond := htest.runs_between hS (Nat.zero_le _) (Nat.le_refl P.pc) (by omega) (by omega)
      (Nat.le_refl P'.pc)
    have hfirst := hinner.mono fun _ _ ht => ht.elim
      (·.mono (show P.pc ≤ top.pc by omega) (show Q.pc ≤ P'.pc by omega))
      (·.between (by omega) le_rfl)
    have hexit : S.Runs proper (fun _ => Between P.pc P'.pc) Q.pc back.pc :=
      hclose.stays hS hlevel fun _ => ⟨by omega, by omega⟩
    have hagain : S.Stays proper (fun _ => Between P.pc P'.pc) back.pc :=
      hjump.stays hS (Nat.zero_le _) fun _ _ _ => ⟨by omega, by omega⟩
    rw [hend] at *
    exact ((hcond.append (hfirst.append hexit)).snoc hagain).mono fun _ _ ht => Or.inl ht
  | @repeatLoop exit P Q P' bottom new hbody hopened htest hclose _ _ _ ih =>
    have hlt := htest.lt
    have hle := hbody.le
    have hle' := hclose.le
    have hlevel := hbody.level_le hP hopened
    have hinner := ih hP fun e he => by
      obtain rfl := Option.some.inj he
      exact hlevel
    have hfirst := hinner.mono fun _ _ ht => ht.elim
      (·.mono (Nat.le_refl P.pc) (show Q.pc ≤ P'.pc by omega))
      (·.between (by omega) le_rfl)
    have hcond := htest.runs_between (l := P.pc) (h := P'.pc) hS hlevel hle (by omega) le_rfl
      (by omega)
    have hexit : S.Runs proper (fun _ => Between P.pc P'.pc) bottom.pc P'.pc :=
      hclose.stays hS hlevel fun _ => ⟨by omega, by omega⟩
    exact ((hfirst.append hcond).append hexit).mono fun _ _ ht => Or.inl ht
  | @forLoop exit P P₁ P₂ Q P' mid call back state names new i j extra K hinit hstate _ _ hnames
      henter hways _ _ htarget hbody hopened hclose hcall hloop hagain hback _ _ hpoint _ _ ih =>
    have hle := hinit.le
    have hle₁ := hbody.le
    have hle₂ := hclose.le
    have hle₃ := hcall.le
    simp only [Point.pc_at, Mark.pc_next] at hle₁
    have hend : P'.pc = back.pc + 1 := by rw [hpoint, Mark.pc_next]
    have hslot₂ := hnames.slotted (hstate.slotted hP)
    have hlevel := hbody.level_le hslot₂ hopened
    have hinner := ih hslot₂ fun e he => by
      obtain rfl := Option.some.inj he
      exact hlevel
    have hfirst := (hinit.runs hS).mono fun _ _ ht =>
      ht.mono (Nat.le_refl P.pc) (show mid.pc ≤ P'.pc by omega)
    have hskip : S.Stays proper (fun _ => Between P.pc P'.pc) mid.pc := henter.stays hways (by
      rw [htarget]
      exact ⟨by omega, by omega⟩)
    have hsecond := hinner.mono fun _ _ ht => ht.elim
      (·.mono (show P.pc ≤ mid.pc + 1 by omega) (show Q.pc ≤ P'.pc by omega))
      (·.between (by omega) le_rfl)
    have hexit : S.Runs proper (fun _ => Between P.pc P'.pc) Q.pc call.pc :=
      hclose.stays hS hlevel fun _ => ⟨by omega, by omega⟩
    have hthird := (hcall.runs hS).mono fun _ _ ht =>
      ht.mono (show P.pc ≤ call.pc by omega) (show back.pc ≤ P'.pc by omega)
    have hlast : S.Stays proper (fun _ => Between P.pc P'.pc) back.pc :=
      hloop.stays_loop hagain ⟨by omega, by omega⟩ (by
        rw [hback]
        exact ⟨by omega, by omega⟩)
    rw [hend] at *
    exact ((((hfirst.snoc hskip).append (hsecond.append hexit)).append hthird).snoc hlast).mono
      fun _ _ ht => Or.inl ht

/-! ## Functions -/

/-- Control does not go on behind the last return. -/
theorem Composed.stays_last (h : Composed S proper names P Q) : S.Stays proper ok Q.pc := by
  have hop := Instruction.opcode?_abc .ret 0 (countCode 0) 0
  have hadm : S.Admits .ret 0 (countCode 0) 0 ∅ := .ret h.limited (by decide)
    ⟨Nat.zero_le _, Nat.zero_le _⟩ nofun fun r _ hr => absurd hr (by omega)
  refine ⟨hadm.does h.last, hop, ?_, nofun⟩
  simp [Instruction.targets, Instruction.ways_eq hop]

/-- No instruction of a function leads out of its code. -/
theorem Composed.runs (h : Composed S proper names P Q) :
    S.Runs proper (fun _ t => 0 ≤ t ∧ t < S.draft.code.size) 0 S.draft.code.size := by
  have hpc : P.pc = 0 := by rw [h.pc_eq]
  have hbody := h.body.runs h.limited h.slotted nofun
  rw [h.size]
  rw [hpc] at hbody
  refine (hbody.mono fun i t ht => ?_).snoc h.stays_last
  rcases ht with ⟨hge, hle⟩ | ⟨e, he, -⟩
  · exact ⟨hge, by omega⟩
  · cases he

/-- Every instruction of a function stands where it may. -/
theorem Composed.does (h : Composed S proper names P Q) (hi : S.draft.code[pc]? = some i) :
    ∃ K, S.Does proper pc i K := by
  obtain ⟨hdo, -, -, -⟩ := h.runs pc (Nat.zero_le _) (Array.getElem?_eq_some_iff.mp hi).1
  obtain rfl := Option.some.inj (hi.symm.trans hdo.code)
  exact ⟨_, hdo⟩

/-- Control may go from one position of a function to another. -/
def Prototype.Follows (p : Prototype) (s t : Int) : Prop :=
  ∃ (pc : Nat) (i : Instruction), s = pc ∧ p.code[pc]? = some i ∧ t ∈ i.targets pc

/-- Nothing in the code of a function leads out of it. -/
structure Prototype.Intact (p : Prototype) : Prop where
  last : ∃ i, p.code.back? = some i ∧ i.opcode? = some .ret ∧ i.a = 0 ∧ i.b = 1
  jumps : ∀ (pc : Nat) i op, p.code[pc]? = some i → i.opcode? = some op →
    op = .jmp ∨ op = .forPrep ∨ op = .forLoop ∨ op = .tForLoop →
    0 ≤ pc + 1 + i.offset ∧ pc + 1 + i.offset < p.code.size
  tests : ∀ (pc : Nat) i op, p.code[pc]? = some i → i.opcode? = some op →
    op = .eq ∨ op = .lt ∨ op = .le ∨ op = .test ∨ op = .testSet →
    (∃ j, p.code[pc + 1]? = some j ∧ j.opcode? = some .jmp) ∧ pc + 2 < p.code.size
  skips : ∀ (pc : Nat) i, p.code[pc]? = some i → i.opcode? = some .loadBool → i.c ≠ 0 →
    pc + 2 < p.code.size
  /-- No path leads out of the code or to a word that is no instruction. -/
  paths : ∀ t, Relation.ReflTransGen p.Follows 0 t →
    ∃ (pc : Nat) (i : Instruction) (op : Opcode),
      t = pc ∧ p.code[pc]? = some i ∧ i.opcode? = some op

theorem Site.Stays.targets (h : S.Stays proper ok pc) (hi : S.Has pc i) :
    ∀ t ∈ i.targets pc, ok i t := by
  obtain ⟨hdo, -, htargets, -⟩ := h
  obtain rfl := Option.some.inj (hi.symm.trans hdo.code)
  exact htargets

theorem Composed.intact (h : Composed S proper names P Q) : (S.draft.finish S.options).Intact := by
  have hruns := h.runs
  have hstays : ∀ {pc : Nat} {i : Instruction}, S.draft.code[pc]? = some i →
      S.Stays proper (fun _ t => 0 ≤ t ∧ t < S.draft.code.size) pc := fun hi =>
    hruns _ (Nat.zero_le _) (Array.getElem?_eq_some_iff.mp hi).1
  constructor
  case last =>
    refine ⟨.abc .ret 0 (countCode 0) 0, ?_, Instruction.opcode?_abc .., ?_, ?_⟩
    · rw [Array.back?, show (S.draft.finish S.options).code = S.draft.code from rfl, h.size]
      exact h.last
    · rw [Instruction.a_abc]
    · rw [Instruction.b_abc]
      rfl
  case jumps =>
    intro pc i op hi hop hjump
    refine (hstays hi).targets hi _ ?_
    rw [Instruction.targets, Instruction.ways_eq hop]
    rcases hjump with rfl | rfl | rfl | rfl <;> simp [Instruction.target]
  case tests =>
    intro pc i op hi hop htest
    have htests : op.tests = true := by rcases htest with rfl | rfl | rfl | rfl | rfl <;> rfl
    obtain ⟨hdo, hop', htargets, hnext⟩ := hstays hi
    obtain rfl := Option.some.inj (hi.symm.trans hdo.code)
    obtain rfl := Option.some.inj (hop.symm.trans hop')
    refine ⟨hnext htests, ?_⟩
    obtain ⟨extra, hways⟩ := Opcode.ways_of_tests htests i.a i.c
    have hskip := htargets (pc + 2)
    simp only [Instruction.targets, Instruction.ways_eq hop, hways, Instruction.target,
      List.map_cons, List.mem_cons, true_or, or_true, true_implies] at hskip
    exact_mod_cast hskip.2
  case skips =>
    intro pc i hi hop hc
    have hskip := (hstays hi).targets hi (pc + 2)
    simp only [Instruction.targets, Instruction.ways_eq hop, Opcode.ways, if_neg hc,
      Instruction.target, List.map_cons, List.mem_cons, true_or, true_implies] at hskip
    exact_mod_cast hskip.2
  case paths =>
    intro t hpath
    -- a path stays inside the code, and what stands there is an instruction
    have hinside : 0 ≤ t ∧ t < S.draft.code.size := by
      induction hpath with
      | refl => exact ⟨Int.le_refl _, by rw [h.size]; omega⟩
      | tail _ hstep _ =>
        obtain ⟨pc, i, -, hi, ht⟩ := hstep
        exact (hstays hi).targets hi _ ht
    obtain ⟨pc, rfl⟩ := Int.eq_ofNat_of_zero_le hinside.1
    obtain ⟨hdo, hop, -, -⟩ := hruns pc (Nat.zero_le _) (by omega)
    exact ⟨pc, _, _, rfl, hdo.code, hop⟩

/-- In every function of a chunk that compiles, control stays inside the code: it
ends with a return, jumps land in it, tests have a jump behind them, and on no path
does execution run off the end. -/
theorem compile_intact {block : Block} {o : Options} (hregs : o.registerLimit ≤ frameRegisters)
    (hconsts : o.constantLimit ≤ operandConstants) {p : Prototype} (h : compile block o = .ok p) :
    ∀ q ∈ p.family, q.Intact := by
  intro q hq
  obtain ⟨S, names, P, Q, rfl, rfl, hcomp⟩ := compile_composes hregs hconsts h q hq
  exact hcomp.intact

/-- A chunk with a loop that is left early and a comparison in a nested function. -/
theorem compile_intact_of_closure :
    let isLast : FunctionBody :=
      ⟨["x"], false, ⟨[], some [.binary .eq (.name "x") (.name "n")], 2⟩, 2, 2⟩
    let check : Stat :=
      .ifChain [⟨.call ⟨.name "f", none, [.name "i"], 4⟩, ⟨[.break 4], none, 4⟩, 4⟩]
    let block : Block := ⟨[.declare ["n"] [.integer 3] 1, .declareFunction "f" isLast,
      .numericFor "i" (.integer 1) (.integer 9) none ⟨[check], none, 5⟩ 3 3], none, 6⟩
    ∃ p, compile block {} = .ok p ∧ ∀ q ∈ p.family, q.Intact := by
  intro isLast check block
  obtain ⟨p, hp⟩ := compile_of_isOk block {} (by decide +kernel)
  exact ⟨p, hp, compile_intact le_rfl le_rfl hp⟩

end LuaLowering
