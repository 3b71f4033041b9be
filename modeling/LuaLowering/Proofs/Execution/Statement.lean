import LuaLowering.Proofs.Execution.Values

/-!
# The code of statements does what they mean

The machine follows the meaning of a statement from one point of the code to the
next. A `break` takes it to the end of the loop instead, with locals open that the
loop has no use for, and a return ends the run. The jumps out of blocks and the
ends of scopes cost instructions but change no register, so whatever is left of a
scope afterwards is what the meaning keeps.
-/

namespace LuaLowering

open Machine

variable {A : Arithmetic} {S : Site} {hidden regs : Nat → Value} {exit : Option Exit}
  {P P' Q : Point} {m m' m₁ m₂ : Memory} {o : Outcome} {s s' : State} {v : Value}
  {level target : Nat} {lo hi : Mark} {first second body : StatShape} {cond : Part}
  {opened : List Nat} {arm : ArmPart} {rest : List ArmPart}

/-- How a run goes on from a state that stands for a point: to another point, to
the exit of the loop around it, or to its end. -/
def Site.Follows (A : Arithmetic) (S : Site) (hidden : Nat → Value) (exit : Option Exit)
    (P P' : Point) (s : State) : Outcome → Memory → Prop
  | .normal, m =>
    ∃ regs, S.Reaches A s ⟨P'.pc, regs, m.globals⟩ ∧ Holds S hidden regs P'.opened m.locals
  | .broke, m => ∃ e regs is, exit = some e ∧ S.Reaches A s ⟨e.target, regs, m.globals⟩ ∧
      P.opened <:+ is ∧ Holds S hidden regs is m.locals
  | .returned values, m => S.Halts A s values m.globals

/-- The code of a shape does what takes one memory to another. -/
def StatShape.Simulates (A : Arithmetic) (S : Site) (shape : StatShape) (m : Memory) (o : Outcome)
    (m' : Memory) : Prop :=
  ∀ ⦃hidden regs : Nat → Value⦄ ⦃exit : Option Exit⦄ ⦃P P' : Point⦄, shape S exit P P' →
    P.opened.length ≤ 255 → Holds S hidden regs P.opened m.locals →
    S.Follows A hidden exit P P' ⟨P.pc, regs, m.globals⟩ o m'

namespace Site.Follows

theorem head (h : S.Follows A hidden exit P P' s' o m) (hrun : S.Reaches A s s') :
    S.Follows A hidden exit P P' s o m := by
  cases o with
  | normal =>
    obtain ⟨regs, hreach, hm⟩ := h
    exact ⟨regs, hrun.trans hreach, hm⟩
  | broke =>
    obtain ⟨e, regs, is, he, hreach, hm⟩ := h
    exact ⟨e, regs, is, he, hrun.trans hreach, hm⟩
  | returned => exact Reaches.halts hrun h

/-- Code that changes no register may follow. -/
theorem tail (h : S.Follows A hidden exit P Q s o m)
    (hrun : ∀ regs g, S.Reaches A ⟨Q.pc, regs, g⟩ ⟨P'.pc, regs, g⟩)
    (hopened : P'.opened = Q.opened) : S.Follows A hidden exit P P' s o m := by
  cases o with
  | normal =>
    obtain ⟨regs, hreach, hm⟩ := h
    exact ⟨regs, hreach.trans (hrun _ _), hopened ▸ hm⟩
  | broke => exact h
  | returned => exact h

/-- Fewer locals may have been open at the start. -/
theorem widen (h : S.Follows A hidden exit Q P' s o m) (hsub : P.opened <:+ Q.opened) :
    S.Follows A hidden exit P P' s o m := by
  cases o with
  | normal => exact h
  | broke =>
    obtain ⟨e, regs, is, he, hreach, hmore, hm⟩ := h
    exact ⟨e, regs, is, he, hreach, hsub.trans hmore, hm⟩
  | returned => exact h

/-- A run that does not end normally never gets to where it would have. -/
theorem retarget (h : S.Follows A hidden exit P Q s o m) (hout : o ≠ .normal) (P' : Point) :
    S.Follows A hidden exit P P' s o m := by
  cases o with
  | normal => exact absurd rfl hout
  | broke => exact h
  | returned => exact h

/-- A body that is left early ends its loop. The loop may have hidden state of its
own, which is forgotten. -/
theorem afterLoop {hidden' : Nat → Value} {e : Exit}
    (h : S.Follows A hidden' (some e) Q P' s o m') (hout : o ≠ .normal)
    (htarget : e.target = P'.pc) (hopened : P'.opened = P.opened)
    (hm : Holds S hidden regs P.opened m.locals) (hsub : P.opened <:+ Q.opened)
    (hhid : ∀ r < P.opened.length, hidden r = hidden' r) :
    S.Follows A hidden exit P P' s o.afterLoop (m'.leave m) := by
  cases o with
  | normal => exact absurd rfl hout
  | broke =>
    obtain ⟨_, regs', is, he, hreach, hmore, hm'⟩ := h
    obtain rfl := Option.some.inj he
    rw [htarget] at hreach
    refine ⟨regs', hreach, ?_⟩
    rw [hopened]
    exact (hm.leave hm' (hsub.trans hmore)).congr (fun _ _ => rfl) hhid
  | returned => exact h

end Site.Follows

/-! ## Scopes and sequences -/

theorem ClosesTo.runs {g : Globals} (h : ClosesTo S level lo hi) :
    S.Reaches A ⟨lo.pc, regs, g⟩ ⟨hi.pc, regs, g⟩ := by
  rcases h.jumps with rfl | ⟨hjump, rfl⟩
  · exact .refl
  · exact hjump.reaches

theorem SeqIs.simulates (hfirst : first.Simulates A S m .normal m₁)
    (hsecond : second.Simulates A S m₁ o m₂) (hS : S.Chunk)
    (hopens : ∀ {exit P P'}, first S exit P P' → Opens S P P') :
    (SeqIs first second).Simulates A S m o m₂ := by
  intro hidden regs exit P P' h hlen hm
  obtain ⟨Q, h₁, h₂⟩ := h
  obtain ⟨regs₁, hrun, hm₁⟩ := hfirst h₁ hlen hm
  have hopen := hopens h₁
  exact ((hsecond h₂ (hopen.length_le hlen hS.registers) hm₁).head hrun).widen hopen.suffix

theorem SeqIs.simulates_left (hfirst : first.Simulates A S m o m') (hout : o ≠ .normal) :
    (SeqIs first second).Simulates A S m o m' := by
  intro hidden regs exit P P' h hlen hm
  obtain ⟨Q, h₁, -⟩ := h
  exact (hfirst h₁ hlen hm).retarget hout P'

theorem ScopedIs.simulates (hbody : body.Simulates A S m o m') :
    (ScopedIs body).Simulates A S m o (m'.leave m) := by
  intro hidden regs exit P P' h hlen hm
  obtain ⟨Q, new, hb, hnew, hclose, -, hopened, -⟩ := h
  have hfollow := hbody hb hlen hm
  cases o with
  | normal =>
    obtain ⟨regs', hreach, hm'⟩ := hfollow
    refine ⟨regs', hreach.trans hclose.runs, ?_⟩
    rw [hopened]
    exact hm.leave hm' ⟨new, hnew.symm⟩
  | broke =>
    obtain ⟨e', regs', is, he, hreach, hmore, hm'⟩ := hfollow
    obtain ⟨e, rfl, rfl⟩ := Option.map_eq_some_iff.mp he
    exact ⟨e, regs', P.opened, rfl, hreach, List.suffix_refl _, hm.leave hm' hmore⟩
  | returned => exact hfollow

/-! ## Tests -/

/-- The test of a condition and the jump behind it, which is taken when it is false. -/
theorem test_runs {mid : Mark} {o : Operand} {used : Nat} (hS : S.Chunk) (hcond : cond.Computes A S)
    (hfirst : cond.exp.FirstOrder)
    (hop : OperandIs S opened cond .register opened.length lo o used mid)
    (htest : S.Writes (.abc .test o.field 0 0) mid mid.next)
    (hjump : S.Jumps .jmp mid.next.pc level target) (hlen : opened.length ≤ 255)
    (hm : Holds S hidden regs opened m.locals) (hv : cond.exp.eval A m = some v) :
    ∃ regs', S.Reaches A ⟨lo.pc, regs, m.globals⟩
        ⟨if v.truthy then mid.next.next.pc else target, regs', m.globals⟩ ∧
      Holds S hidden regs' opened m.locals := by
  obtain ⟨r, rfl⟩ := hop.register_of
  obtain ⟨regs', hrun, ⟨hr, rfl⟩, hkeep, -, hmax⟩ :=
    hop.runs hS hcond hfirst hm le_rfl hlen rfl hv
  refine ⟨regs', ?_, hm.frame fun r hr => hkeep r hr⟩
  have hstep : S.Reaches A ⟨mid.pc, regs', m.globals⟩
      ⟨mid.pc + if (regs' r).truthy then 2 else 1, regs', m.globals⟩ :=
    htest.1.test (by show r < 256; omega)
  cases htruthy : (regs' r).truthy <;> rw [htruthy] at hstep
  · exact (hrun.trans hstep).trans hjump.reaches
  · exact hrun.trans hstep

theorem TestIs.runs (hS : S.Chunk) (hcond : cond.Computes A S) (hfirst : cond.exp.FirstOrder)
    (h : TestIs cond S opened target lo hi) (hlen : opened.length ≤ 255)
    (hm : Holds S hidden regs opened m.locals) (hv : cond.exp.eval A m = some v) :
    ∃ regs', S.Reaches A ⟨lo.pc, regs, m.globals⟩
        ⟨if v.truthy then hi.pc else target, regs', m.globals⟩ ∧
      Holds S hidden regs' opened m.locals := by
  obtain ⟨r, used, mid, hop, htest, hjump, rfl⟩ := h
  exact test_runs hS hcond hfirst hop htest hjump hlen hm hv

/-! ## Loops -/

section

variable {cond : Part} {body : StatShape} (hS : S.Chunk) (hcond : cond.Computes A S)
  (hfirst : cond.exp.FirstOrder)

include hS hcond hfirst

theorem WhileIs.simulates_done (hv : cond.exp.eval A m = some v) (hfalse : v.truthy = false) :
    (WhileIs cond body).Simulates A S m .normal m := by
  intro hidden regs exit P P' h hlen hm
  obtain ⟨top, Q, new, back, htest, -, -, -, -, rfl, -⟩ := h
  obtain ⟨regs', hrun, hm'⟩ := htest.runs hS hcond hfirst hlen hm hv
  rw [hfalse] at hrun
  exact ⟨regs', hrun, hm'⟩

theorem WhileIs.simulates_again (hv : cond.exp.eval A m = some v) (htrue : v.truthy = true)
    (hbody : body.Simulates A S m .normal m₁)
    (hmore : (WhileIs cond body).Simulates A S (m₁.leave m) o m₂) :
    (WhileIs cond body).Simulates A S m o m₂ := by
  intro hidden regs exit P P' h hlen hm
  have hloop := h
  obtain ⟨top, Q, new, back, htest, hb, hnew, hclose, hjump, rfl, -⟩ := h
  obtain ⟨regs₁, hrun₁, hm₁⟩ := htest.runs hS hcond hfirst hlen hm hv
  rw [htrue] at hrun₁
  obtain ⟨regs₂, hrun₂, hm₂⟩ := hbody hb hlen hm₁
  have hback := ((hrun₁.trans hrun₂).trans hclose.runs).trans hjump.reaches
  exact (hmore hloop hlen (hm.leave hm₂ ⟨new, hnew.symm⟩)).head hback

theorem WhileIs.simulates_left (hv : cond.exp.eval A m = some v) (htrue : v.truthy = true)
    (hbody : body.Simulates A S m o m') (hout : o ≠ .normal) :
    (WhileIs cond body).Simulates A S m o.afterLoop (m'.leave m) := by
  intro hidden regs exit P P' h hlen hm
  obtain ⟨top, Q, new, back, htest, hb, -, -, -, rfl, -⟩ := h
  obtain ⟨regs₁, hrun₁, hm₁⟩ := htest.runs hS hcond hfirst hlen hm hv
  rw [htrue] at hrun₁
  have hfollow := (hbody hb hlen hm₁).retarget hout ⟨back.next, P.opened, Q.declared⟩
  exact (hfollow.afterLoop hout rfl rfl hm (List.suffix_refl _) fun _ _ => rfl).head hrun₁

theorem RepeatIs.simulates_done (hbody : body.Simulates A S m .normal m')
    (hopens : ∀ {exit P P'}, body S exit P P' → Opens S P P')
    (hv : cond.exp.eval A m' = some v) (htrue : v.truthy = true) :
    (RepeatIs body cond).Simulates A S m .normal (m'.leave m) := by
  intro hidden regs exit P P' h hlen hm
  obtain ⟨Q, new, r, used, mid, hb, hnew, hop, htest, hjump, hclose, -, hopened, -⟩ := h
  obtain ⟨regs₁, hrun₁, hm₁⟩ := hbody hb hlen hm
  obtain ⟨regs₂, hrun₂, hm₂⟩ := test_runs hS hcond hfirst hop htest hjump
    ((hopens hb).length_le hlen hS.registers) hm₁ hv
  rw [htrue] at hrun₂
  refine ⟨regs₂, (hrun₁.trans hrun₂).trans hclose.runs, ?_⟩
  rw [hopened]
  exact hm.leave hm₂ ⟨new, hnew.symm⟩

theorem RepeatIs.simulates_again (hbody : body.Simulates A S m .normal m₁)
    (hopens : ∀ {exit P P'}, body S exit P P' → Opens S P P')
    (hv : cond.exp.eval A m₁ = some v) (hfalse : v.truthy = false)
    (hmore : (RepeatIs body cond).Simulates A S (m₁.leave m) o m₂) :
    (RepeatIs body cond).Simulates A S m o m₂ := by
  intro hidden regs exit P P' h hlen hm
  have hloop := h
  obtain ⟨Q, new, r, used, mid, hb, hnew, hop, htest, hjump, -⟩ := h
  obtain ⟨regs₁, hrun₁, hm₁⟩ := hbody hb hlen hm
  obtain ⟨regs₂, hrun₂, hm₂⟩ := test_runs hS hcond hfirst hop htest hjump
    ((hopens hb).length_le hlen hS.registers) hm₁ hv
  rw [hfalse] at hrun₂
  exact (hmore hloop hlen (hm.leave hm₂ ⟨new, hnew.symm⟩)).head (hrun₁.trans hrun₂)

end

theorem RepeatIs.simulates_left (hbody : body.Simulates A S m o m') (hout : o ≠ .normal) :
    (RepeatIs body cond).Simulates A S m o.afterLoop (m'.leave m) := by
  intro hidden regs exit P P' h hlen hm
  obtain ⟨Q, new, r, used, mid, hb, -, -, -, -, -, -, hopened, -⟩ := h
  have hfollow := (hbody hb hlen hm).retarget hout P'
  exact hfollow.afterLoop hout rfl hopened hm (List.suffix_refl _) fun _ _ => rfl

/-! ## Arms -/

/-- The first arm of an `if`: its test leads to the others, its body past them. -/
theorem IfIs.cons (h : IfIs (arm :: rest) S exit P P') :
    ∃ top Q R, TestIs arm.cond S P.opened R.pc P.toMark top ∧
      ScopedIs arm.body S exit (P.at top) Q ∧ Q.opened = P.opened ∧
      (∀ regs g, S.Reaches A ⟨Q.pc, regs, g⟩ ⟨P'.pc, regs, g⟩) ∧
      R.opened = P.opened ∧ IfIs rest S exit R P' := by
  cases rest with
  | nil =>
    obtain ⟨top, htest, hbody⟩ := h
    have hsame : P'.opened = P.opened := hbody.opened_eq
    exact ⟨top, P', P', htest, hbody, hsame, fun _ _ => .refl, hsame, rfl⟩
  | cons =>
    obtain ⟨top, Q, htest, hbody, hjump, hrest⟩ := h
    have hsame : Q.opened = P.opened := hbody.opened_eq
    exact ⟨top, Q, Q.at Q.next, htest, hbody, hsame, fun _ _ => hjump.reaches, hsame, hrest⟩

theorem IfIs.simulates_taken (hS : S.Chunk) (hcond : arm.cond.Computes A S)
    (hfirst : arm.cond.exp.FirstOrder) (hv : arm.cond.exp.eval A m = some v)
    (htrue : v.truthy = true) (hbody : arm.body.Simulates A S m o m') :
    (IfIs (arm :: rest)).Simulates A S m o (m'.leave m) := by
  intro hidden regs exit P P' h hlen hm
  have hpast : P'.opened = P.opened := ArmsAre.opened_eq h
  obtain ⟨top, Q, R, htest, hb, hQ, hout, -, -⟩ := h.cons (A := A)
  obtain ⟨regs₁, hrun, hm₁⟩ := htest.runs hS hcond hfirst hlen hm hv
  rw [htrue] at hrun
  have hfollow := (ScopedIs.simulates hbody hb hlen hm₁).head hrun
  exact (hfollow.tail hout (hpast.trans hQ.symm)).widen (List.suffix_refl _)

theorem IfIs.simulates_skipped (hS : S.Chunk) (hcond : arm.cond.Computes A S)
    (hfirst : arm.cond.exp.FirstOrder) (hv : arm.cond.exp.eval A m = some v)
    (hfalse : v.truthy = false) (hmore : (IfIs rest).Simulates A S m o m') :
    (IfIs (arm :: rest)).Simulates A S m o m' := by
  intro hidden regs exit P P' h hlen hm
  obtain ⟨top, Q, R, htest, -, -, -, hR, hrest⟩ := h.cons (A := A)
  obtain ⟨regs₁, hrun, hm₁⟩ := htest.runs hS hcond hfirst hlen hm hv
  rw [hfalse] at hrun
  rw [← hR] at hlen hm₁
  exact ((hmore hrest hlen hm₁).head hrun).widen (hR ▸ List.suffix_refl _)

/-! ## Numeric loops -/

/-- The code of the rounds of a numeric loop, from the point `B` where a round
starts to the test at `loop`. -/
structure RoundsAre (var : String) (body : StatShape) (S : Site) (P B Q P' : Point) (loop : Mark) :
    Prop where
  state : ∃ startPc mid P₁, Declares S startPc numericState (P.at mid) P₁ ∧
    ∃ P₂, Declares S (P₁.pc + 1) [var] P₁ P₂ ∧ B = P₂.at P₂.next
  again : S.Jumps .forLoop loop.pc P.opened.length B.pc
  body : ∃ level, body S (some ⟨P'.pc, level⟩) B Q ∧ ClosesTo S level Q.toMark loop
  past : P'.pc = loop.pc + 1
  opened : P'.opened = P.opened

/-- The hidden state of a numeric loop is in place, with the counter one step
before the next round. -/
structure LoopState (A : Arithmetic) (regs : Nat → Value) (base : Nat) (n limit step : Int64) :
    Prop where
  counter : ∃ before, regs base = .integer before ∧ A.add before step = some n
  limit : regs (base + 1) = .integer limit
  step : regs (base + 2) = .integer step

theorem numericState_hidden : ∀ x ∈ numericState, x.toList.head? = some '(' := by decide

section

variable {var : String} {body : StatShape} {B : Point} {loop : Mark} {n next limit step : Int64}

theorem RoundsAre.opens (h : RoundsAre var body S P B Q P' loop) :
    P.opened <:+ B.opened ∧ B.opened.length = P.opened.length + 4 ∧ S.Room B.opened.length := by
  obtain ⟨startPc, mid, P₁, hstate, P₂, hvar, rfl⟩ := h.state
  have hlen := hstate.length_eq
  have hlen' := hvar.length_eq
  refine ⟨hstate.opens.suffix.trans hvar.opens.suffix, ?_, hvar.opens.room.resolve_left ?_⟩
  · simp only [numericState, List.length_cons, List.length_nil, Point.at] at hlen hlen' ⊢
    omega
  · intro heq
    have := congrArg List.length heq
    simp only [List.length_cons, List.length_nil] at hlen'
    omega

/-- The test of a loop that goes on: the counter is moved, and a copy of it is in
the register after the hidden state. -/
theorem RoundsAre.test (hS : S.Chunk) (h : RoundsAre var body S P B Q P' loop)
    (hloop : LoopState A regs P.opened.length n limit step)
    (hin : withinLimit n limit step = true) (g : Globals) :
    ∃ regs₁, S.Reaches A ⟨loop.pc, regs, g⟩ ⟨B.pc, regs₁, g⟩ ∧
      (∀ r < P.opened.length, regs₁ r = regs r) ∧ regs₁ P.opened.length = .integer n ∧
      regs₁ (P.opened.length + 1) = .integer limit ∧
      regs₁ (P.opened.length + 2) = .integer step ∧ regs₁ (P.opened.length + 3) = .integer n := by
  obtain ⟨before, hbefore, hadd⟩ := hloop.counter
  have hmax := hS.room h.opens.2.2
  rw [h.opens.2.1] at hmax
  refine ⟨_, h.again.forLoop (by omega) hbefore hloop.limit hloop.step hadd hin,
    fun r hr => ?_, ?_, ?_, ?_, Function.update_self _ _ _⟩
  · rw [Function.update_of_ne (by omega), Function.update_of_ne (by omega)]
  · rw [Function.update_of_ne (by omega), Function.update_self]
  · rw [Function.update_of_ne (by omega), Function.update_of_ne (by omega), hloop.limit]
  · rw [Function.update_of_ne (by omega), Function.update_of_ne (by omega), hloop.step]

/-- Hidden state below a register, and whatever stands in the registers from there on. -/
def hiddenBelow (base : Nat) (hidden regs : Nat → Value) : Nat → Value :=
  fun r => if r < base then hidden r else regs r

/-- A round starts with the counter in the loop variable, and with hidden state
that will still be there when the round is over. -/
theorem RoundsAre.enter (hS : S.Chunk) (h : RoundsAre var body S P B Q P' loop)
    (hplain : PlainName var) (hm : Holds S hidden regs P.opened m.locals)
    (hloop : LoopState A regs P.opened.length n limit step)
    (hin : withinLimit n limit step = true) :
    ∃ hidden₁ regs₁, S.Reaches A ⟨loop.pc, regs, m.globals⟩ ⟨B.pc, regs₁, m.globals⟩ ∧
      Holds S hidden₁ regs₁ B.opened (m.declare [var] [.integer n]).locals ∧
      (∀ r < P.opened.length, hidden r = hidden₁ r) ∧
      ∀ {regs₂ : Nat → Value} {ρ is next}, Holds S hidden₁ regs₂ is ρ → B.opened <:+ is →
        A.add n step = some next → LoopState A regs₂ P.opened.length next limit step := by
  obtain ⟨regs₁, hrun, hkeep, hcounter, hlimit, hstep, hcopy⟩ := h.test hS hloop hin m.globals
  have hbelow : ∀ r < P.opened.length, hiddenBelow P.opened.length hidden regs₁ r = hidden r :=
    fun r hr => if_pos hr
  have habove : ∀ k, hiddenBelow P.opened.length hidden regs₁ (P.opened.length + k) =
      regs₁ (P.opened.length + k) := fun k => if_neg (by omega)
  generalize hiddenBelow P.opened.length hidden regs₁ = hidden₁ at hbelow habove
  obtain ⟨startPc, mid, P₁, hstate, P₂, hvar, rfl⟩ := h.state
  have hlen : P₁.opened.length = P.opened.length + 3 := hstate.length_eq
  have hm₁ : Holds S hidden₁ regs₁ P₁.opened m.locals :=
    hstate.holds_hidden numericState_hidden (fun k _ => (habove k).symm) (hm.congr hkeep hbelow)
  have hm₂ : Holds S hidden₁ regs₁ P₂.opened (m.declare [var] [.integer n]).locals := by
    refine hvar.holds (by simpa using hplain) (fun k hk => ?_) hm₁
    obtain rfl : k = 0 := by simpa using hk
    rw [hlen]
    exact hcopy
  refine ⟨hidden₁, regs₁, hrun, hm₂, fun r hr => (hbelow r hr).symm, ?_⟩
  intro regs₂ ρ is next hm' hsub hnext
  obtain ⟨more, rfl⟩ := hvar.opens.suffix.trans hsub
  obtain ⟨-, rest, -, hrest⟩ := hm'.suffix
  have hsame := hstate.hidden_eq numericState_hidden hrest
  have hkept : ∀ k < 3, regs₂ (P.opened.length + k) = regs₁ (P.opened.length + k) :=
    fun k hk => (hsame k hk).trans (habove k)
  exact ⟨⟨n, (hkept 0 (by omega)).trans hcounter, hnext⟩, (hkept 1 (by omega)).trans hlimit,
    (hkept 2 (by omega)).trans hstep⟩

/-- The rounds of a numeric loop do what they mean. -/
def RoundsAre.Simulates (A : Arithmetic) (S : Site) (var : String) (body : StatShape)
    (n limit step : Int64) (m : Memory) (o : Outcome) (m' : Memory) : Prop :=
  ∀ ⦃hidden regs : Nat → Value⦄ ⦃exit : Option Exit⦄ ⦃P B Q P' : Point⦄ ⦃loop : Mark⦄,
    RoundsAre var body S P B Q P' loop → Holds S hidden regs P.opened m.locals →
    LoopState A regs P.opened.length n limit step →
    S.Follows A hidden exit P P' ⟨loop.pc, regs, m.globals⟩ o m'

theorem RoundsAre.simulates_done (hS : S.Chunk) (hpast : withinLimit n limit step = false) :
    RoundsAre.Simulates A S var body n limit step m .normal m := by
  intro hidden regs exit P B Q P' loop h hm hloop
  obtain ⟨before, hbefore, hadd⟩ := hloop.counter
  have hmax := hS.room h.opens.2.2
  rw [h.opens.2.1] at hmax
  have hrun := h.again.forLoop_done (A := A) (g := m.globals) (by omega) hbefore hloop.limit
    hloop.step hadd hpast
  rw [← h.past] at hrun
  refine ⟨_, hrun, ?_⟩
  rw [h.opened]
  exact hm.frame fun r hr => Function.update_of_ne (by omega) _ _

theorem RoundsAre.simulates_again (hS : S.Chunk) (hplain : PlainName var)
    (hopens : ∀ {exit P P'}, body S exit P P' → Opens S P P')
    (hin : withinLimit n limit step = true)
    (hbody : body.Simulates A S (m.declare [var] [.integer n]) .normal m₁)
    (hnext : A.add n step = some next)
    (hmore : RoundsAre.Simulates A S var body next limit step (m₁.leave m) o m₂) :
    RoundsAre.Simulates A S var body n limit step m o m₂ := by
  intro hidden regs exit P B Q P' loop h hm hloop
  obtain ⟨hidden₁, regs₁, hrun₁, hm₁, hhid, hstate⟩ := h.enter hS hplain hm hloop hin
  obtain ⟨level, hb, hclose⟩ := h.body
  obtain ⟨regs₂, hrun₂, hm₂⟩ := hbody hb (hS.room h.opens.2.2) hm₁
  have hsub := (hopens hb).suffix
  have hm' := (hm.leave hm₂ (h.opens.1.trans hsub)).congr (fun _ _ => rfl) hhid
  exact (hmore h hm' (hstate hm₂ hsub hnext)).head ((hrun₁.trans hrun₂).trans hclose.runs)

theorem RoundsAre.simulates_left (hS : S.Chunk) (hplain : PlainName var)
    (hin : withinLimit n limit step = true)
    (hbody : body.Simulates A S (m.declare [var] [.integer n]) o m') (hout : o ≠ .normal) :
    RoundsAre.Simulates A S var body n limit step m o.afterLoop (m'.leave m) := by
  intro hidden regs exit P B Q P' loop h hm hloop
  obtain ⟨hidden₁, regs₁, hrun₁, hm₁, hhid, -⟩ := h.enter hS hplain hm hloop hin
  obtain ⟨level, hb, -⟩ := h.body
  have hfollow := (hbody hb (hS.room h.opens.2.2) hm₁).retarget hout P'
  exact (hfollow.afterLoop hout rfl h.opened hm h.opens.1 hhid).head hrun₁

theorem NumericForIs.simulates {init last by_ : Part} {before : Int64} (hS : S.Chunk)
    (hparts : ∀ p ∈ [init, last, by_], p.Computes A S ∧ p.exp.FirstOrder)
    (hinit : init.exp.eval A m = some (.integer n))
    (hlimit : last.exp.eval A m = some (.integer limit))
    (hstep : by_.exp.eval A m = some (.integer step)) (hbefore : A.sub n step = some before)
    (hrounds : RoundsAre.Simulates A S var body n limit step m o m') :
    (NumericForIs var init last by_ body).Simulates A S m o m' := by
  intro hidden regs exit P P' h hlen hm
  obtain ⟨P₁, P₂, Q, new, loop, ⟨mid, hload, hstate⟩, hvar, hprep, hb, -, hclose, hagain, rfl, -⟩ :=
    h
  have hvalues : Part.evalAll A m [init, last, by_] =
      some [.integer n, .integer limit, .integer step] := by
    simp [Part.evalAll, hinit, hlimit, hstep]
  obtain ⟨regs₁, hrun₁, hvals, hkeep, hmax⟩ :=
    hload.runs hS hparts hm le_rfl hlen hvalues
  have hstart : P₁.pc = mid.pc := congrArg Mark.pc hstate.pc_eq
  have hnext : P₂.pc = P₁.pc := congrArg Mark.pc hvar.pc_eq
  have hcode : RoundsAre var body S P (P₂.at P₂.next) Q ⟨loop.next, P.opened, Q.declared⟩ loop :=
    ⟨⟨_, mid, P₁, hstate, P₂, hvar, rfl⟩, by rw [← hnext] at hagain; exact hagain,
      ⟨_, hb, hclose⟩, rfl, rfl⟩
  have hcount : P.opened.length + 3 ≤ 255 := hmax
  have hrun₂ := hprep.forPrep (A := A) (g := m.globals) (by omega) (hvals 0 (by decide))
    (hvals 2 (by decide)) hbefore
  rw [hstart] at hrun₂
  refine (hrounds hcode (hm.frame fun r hr => ?_) ⟨⟨before, ?_, A.add_of_sub hbefore⟩, ?_, ?_⟩).head
    (hrun₁.trans hrun₂)
  · rw [Function.update_of_ne (by omega), hkeep r hr]
  · exact Function.update_self _ _ _
  · rw [Function.update_of_ne (by omega)]
    exact hvals 1 (by decide)
  · rw [Function.update_of_ne (by omega)]
    exact hvals 2 (by decide)

end

end LuaLowering
