import LuaLowering.Proofs.Flow.Integrity

/-!
# Registers are written before they are read

A path through a function carries the set of registers that have been written on
it. A position is safe for `n` steps if no path of that length from there reads any
other register. Structured code is safe where it begins if it is safe where it
ends. For a loop that is circular, and here the number of steps breaks the circle:
whatever goes back to the head of a loop has made a step.
-/

namespace LuaLowering

/-- A position is safe for some number of steps, once the registers of `K` have been
written. -/
def Site.Safe (S : Site) : Nat → Nat → Set Nat → Prop
  | 0, _, _ => True
  | n + 1, pc, K => ∃ i, S.Has pc i ∧ i.Ready K ∧
      ∀ w ∈ i.ways, ∀ pc' : Nat, i.target pc w.1 = pc' → S.Safe n pc' (i.after w.2 K)

variable {S : Site} {proper : Prop} {opened : List Nat} {K K' : Set Nat} {lo hi : Mark}
  {exit : Option Exit} {P P' : Point} {i : Instruction} {n pc a target : Nat}

theorem Instruction.Ready.mono (h : i.Ready K) (hsub : K ⊆ K') : i.Ready K' :=
  fun s hs => (h s hs).trans hsub

theorem Instruction.after_mono (i : Instruction) (extra : List Span) (hsub : K ⊆ K') :
    i.after extra K ⊆ i.after extra K' := by
  rintro r (⟨hr, hbase⟩ | hr)
  · exact Or.inl ⟨hsub hr, hbase⟩
  · exact Or.inr hr

/-- What writes nothing and calls nothing leaves all registers written. -/
theorem Instruction.subset_after (hbase : i.base? = none) (extra : List Span) :
    K ⊆ i.after extra K := fun r hr => Or.inl ⟨hr, by simp [hbase]⟩

namespace Site.Safe

theorem mono (h : S.Safe n pc K) (hsub : K ⊆ K') : S.Safe n pc K' := by
  induction n generalizing pc K K' with
  | zero => trivial
  | succ n ih =>
    obtain ⟨i, hi, hready, hways⟩ := h
    exact ⟨i, hi, hready.mono hsub, fun w hw pc' hpc' =>
      ih (hways w hw pc' hpc') (i.after_mono w.2 hsub)⟩

theorem pred (h : S.Safe (n + 1) pc K) : S.Safe n pc K := by
  induction n generalizing pc K with
  | zero => trivial
  | succ n ih =>
    obtain ⟨i, hi, hready, hways⟩ := h
    exact ⟨i, hi, hready, fun w hw pc' hpc' => ih (hways w hw pc' hpc')⟩

theorem of_le {m : Nat} (h : S.Safe n pc K) (hle : m ≤ n) : S.Safe m pc K := by
  induction hle with
  | refl => exact h
  | step _ ih => exact ih h.pred

/-- A position is safe if what stands there is ready and every way on is safe for
fewer steps. -/
theorem step (hi : S.Has pc i) (hready : i.Ready K)
    (hways : ∀ m < n, ∀ w ∈ i.ways, ∀ pc' : Nat, i.target pc w.1 = pc' →
      S.Safe m pc' (i.after w.2 K)) : S.Safe n pc K := by
  cases n with
  | zero => trivial
  | succ n => exact ⟨i, hi, hready, hways n (Nat.lt_succ_self n)⟩

/-- An instruction with one way on. -/
theorem single (hdo : S.Does proper pc i K) (hproper : proper) {turn : Turn} {extra : List Span}
    (hways : i.ways = [(turn, extra)]) (htarget : i.target pc turn = target)
    (h : ∀ m < n, S.Safe m target (i.after extra K)) : S.Safe n pc K := by
  refine step hdo.code (hdo.ready hproper) fun m hm w hw pc' hpc' => ?_
  rw [hways, List.mem_singleton] at hw
  subst hw
  obtain rfl : target = pc' := by exact_mod_cast htarget.symm.trans hpc'
  exact h m hm

/-- An instruction with two ways on. -/
theorem pair (hdo : S.Does proper pc i K) (hproper : proper) {turn turn' : Turn}
    {extra extra' : List Span} (hways : i.ways = [(turn, extra), (turn', extra')]) {target' : Nat}
    (htarget : i.target pc turn = target) (htarget' : i.target pc turn' = target')
    (h : ∀ m < n, S.Safe m target (i.after extra K))
    (h' : ∀ m < n, S.Safe m target' (i.after extra' K)) : S.Safe n pc K := by
  refine step hdo.code (hdo.ready hproper) fun m hm w hw pc' hpc' => ?_
  rw [hways, List.mem_cons, List.mem_singleton] at hw
  rcases hw with rfl | rfl
  · obtain rfl : target = pc' := by exact_mod_cast htarget.symm.trans hpc'
    exact h m hm
  · obtain rfl : target' = pc' := by exact_mod_cast htarget'.symm.trans hpc'
    exact h' m hm

end Site.Safe

/-- A jump reads and writes nothing. -/
theorem Site.Jumps.safe (hS : S.Limited) (hjump : S.Jumps .jmp pc a target)
    (ha : a ≤ S.peak) (h : ∀ m < n, S.Safe m target K) : S.Safe n pc K := by
  have hmax := hS.peak_le
  have hdo : S.Does True pc _ K := hjump.within hS ha
  refine .single hdo trivial (ways_jump (show a < 0x100 by omega) (by simp)) hjump.target_eq
    fun m hm => (h m hm).mono ?_
  exact fun r hr => mem_after_jump (by simp) (Or.inl hr)

/-! ## Expressions -/

theorem Code.safe (hS : S.Limited) (hproper : proper) (h : Code S proper opened K lo hi K')
    (hend : S.Safe n hi.pc K') : S.Safe n lo.pc K := by
  induction h with
  | drop hsub => exact hend.mono hsub
  | seq _ _ ih ih' => exact ih (ih' hend)
  | step hdo hways => exact .single hdo hproper hways rfl fun m hm => hend.of_le (Nat.le_of_lt hm)
  | far hdo hop =>
    have hways := Instruction.ways_eq hop
    exact .single hdo hproper hways rfl fun m hm => hend.of_le (Nat.le_of_lt hm)
  | @closure K lo a hdo =>
    have hways := Instruction.ways_eq (Instruction.opcode?_abx .closure a lo.nested)
    exact .single hdo hproper hways rfl fun m hm => hend.of_le (Nat.le_of_lt hm)
  | either hdo hop hjump hrest hkeep ih =>
    have hways := Instruction.ways_eq hop
    have hbase := Instruction.base?_eq hop
    refine .pair hdo hproper hways rfl rfl (fun m hm => ?_) fun m hm => ?_
    · refine hjump.safe hS (Nat.zero_le _) fun m' hm' => ?_
      exact (hend.of_le (by omega)).mono hkeep
    · exact ((ih hend).of_le (Nat.le_of_lt hm)).mono (Instruction.subset_after hbase [])
  | @compare K lo i j k op hdo hop htest hjump hfalse hskip htrue hnext _ hsame =>
    have hways : i.ways = [(.next, []), (.skip, [])] := by
      rw [Instruction.ways_eq hop]
      rcases htest with rfl | rfl | rfl <;> rfl
    have hbase : i.base? = none := by
      rw [Instruction.base?_eq hop]
      rcases htest with rfl | rfl | rfl <;> rfl
    have hsub : K ⊆ i.after [] K := Instruction.subset_after hbase []
    have hload : S.Safe n (lo.pc + 3) K :=
      .single htrue hproper hnext rfl fun m hm => hend.of_le (Nat.le_of_lt hm)
    have hload' : S.Safe n (lo.pc + 2) K := by
      refine .single hfalse hproper hskip rfl fun m hm => ?_
      rw [hsame]
      exact hend.of_le (Nat.le_of_lt hm)
    refine .pair hdo hproper hways rfl rfl (fun m hm => ?_) fun m hm => ?_
    · refine hjump.safe hS (Nat.zero_le _) fun m' hm' => ?_
      exact (hload.of_le (by omega)).mono hsub
    · exact (hload'.of_le (Nat.le_of_lt hm)).mono hsub

theorem Tested.safe (hS : S.Limited) (hproper : proper)
    (h : Tested S proper opened a target lo hi) (ha : a ≤ S.peak)
    (htarget : ∀ m < n, S.Safe m target (Set.Iio opened.length))
    (hend : S.Safe n hi.pc (Set.Iio opened.length)) :
    S.Safe n lo.pc (Set.Iio opened.length) := by
  obtain ⟨hcond, hheld, hdo, hop, hjump⟩ := h
  have hways := Instruction.ways_eq hop
  have hsub := hheld.trans (Instruction.subset_after (Instruction.base?_eq hop) [])
  refine hcond.safe hS hproper (.pair hdo hproper hways rfl rfl (fun m hm => ?_) fun m hm => ?_)
  · refine hjump.safe hS ha fun m' hm' => ?_
    exact (htarget m' (by omega)).mono hsub
  · exact (hend.of_le (Nat.le_of_lt hm)).mono hsub

/-! ## Statements -/

theorem ClosesTo.safe (hS : S.Limited) {level : Nat} (h : ClosesTo S level lo hi)
    (hlevel : level ≤ S.peak) (hend : S.Safe n hi.pc K) : S.Safe n lo.pc K := by
  rcases h.jumps with rfl | ⟨hjump, -⟩
  · exact hend
  · exact hjump.safe hS hlevel fun m hm => hend.of_le (Nat.le_of_lt hm)

/-- The code of a statement is safe if its end is, and the exit of the loop around
it. -/
theorem Flow.safe (hS : S.Limited) (hproper : proper) (h : Flow S proper exit P P')
    (hP : S.Slotted P.opened)
    (hclose : ∀ e, exit = some e → e.close ≤ S.peak)
    (hexit : ∀ e, exit = some e → S.Safe n e.target P.held)
    (hend : S.Safe n P'.pc P'.held) : S.Safe n P.pc P.held := by
  induction h generalizing n with
  | skip => exact hend
  | seq hfirst hrest ih ih' =>
    refine ih hP hclose hexit (ih' (hfirst.slotted hP) hclose (fun e he => ?_) hend)
    exact (hexit e he).mono hfirst.held_subset
  | declare hcode _ hdecl =>
    refine hcode.safe hS hproper ?_
    rw [Point.held, hdecl.length_eq, hdecl.pc_eq] at hend
    exact hend
  | @leave exit P e he hjump =>
    exact hjump.safe hS (hclose e he) fun m hm => (hexit e he).of_le (Nat.le_of_lt hm)
  | ret hcode hdo hop =>
    refine hcode.safe hS hproper (.step hdo.code (hdo.ready hproper) fun m _ w hw => ?_)
    rw [Instruction.ways_eq hop] at hw
    cases hw
  | scope hbody hopened hscope _ hsame _ ih =>
    have hslot := hopened ▸ hbody.slotted hP
    refine ih hP (fun e he => ?_) (fun e he => ?_) (hscope.safe hS hslot.level_le (hend.mono ?_))
    · obtain ⟨e', he', rfl⟩ := Option.map_eq_some_iff.mp he
      exact joinClose_le hslot.level_le (hclose e' he')
    · obtain ⟨e', he', rfl⟩ := Option.map_eq_some_iff.mp he
      exact hexit e' he'
    · rw [Point.held, hsame]
      exact hbody.held_subset
  | lastArm htest _ hsame ih =>
    refine htest.safe hS hproper (Nat.zero_le _) (fun m hm => ?_) (ih hP hclose hexit hend)
    rw [Point.held, hsame] at hend
    exact hend.of_le (Nat.le_of_lt hm)
  | @arm exit P Q P' top htest hbody hjump hrest hmid hsame ih ih' =>
    have hQ : S.Slotted Q.opened := hmid ▸ hP
    have hheld : Q.held = P.held := by rw [Point.held, hmid, Point.held]
    have hnext : S.Safe n (Q.pc + 1) P.held := by
      rw [← hheld]
      exact ih' hQ hclose (fun e he => hheld ▸ hexit e he) hend
    refine htest.safe hS hproper (Nat.zero_le _) (fun m hm => hnext.of_le (Nat.le_of_lt hm))
      (ih hP hclose hexit (hjump.safe hS (Nat.zero_le _) fun m hm => ?_))
    rw [Point.held, hsame, ← hmid] at hend
    exact hend.of_le (Nat.le_of_lt hm)
  | @whileLoop exit P Q P' top back new htest hbody hopened hscope hjump hpoint _ ih =>
    have hslot := hopened ▸ hbody.slotted hP
    have hout : P'.held = P.held := by rw [hpoint]; rfl
    rw [hout] at hend
    -- from the head of the loop control comes back to it with fewer steps left
    induction n with
    | zero => trivial
    | succ n hagain =>
      have hhead := hagain (fun e he => (hexit e he).pred) hend.pred
      have hback : S.Safe (n + 1) back.pc P.held :=
        hjump.safe hS (Nat.zero_le _) fun m hm => hhead.of_le (Nat.le_of_lt_succ hm)
      refine htest.safe hS hproper (Nat.zero_le _) (fun m hm => hend.of_le (Nat.le_of_lt hm))
        (ih hP (fun e he => ?_) (fun e he => ?_)
          (hscope.safe hS hslot.level_le (hback.mono hbody.held_subset)))
      · obtain rfl := Option.some.inj he
        exact hslot.level_le
      · obtain rfl := Option.some.inj he
        exact hend
  | @repeatLoop exit P Q P' bottom new hbody hopened htest hscope _ hsame _ ih =>
    have hslot := hopened ▸ hbody.slotted hP
    have hout : P'.held = P.held := by rw [Point.held, hsame, Point.held]
    rw [hout] at hend
    induction n with
    | zero => trivial
    | succ n hagain =>
      have hhead := hagain (fun e he => (hexit e he).pred) hend.pred
      have hbottom : S.Safe (n + 1) bottom.pc Q.held :=
        hscope.safe hS hslot.level_le (hend.mono hbody.held_subset)
      have htail : S.Safe (n + 1) Q.pc Q.held :=
        htest.safe hS hproper hslot.level_le (fun m hm =>
          (hhead.of_le (Nat.le_of_lt_succ hm)).mono hbody.held_subset) hbottom
      refine ih hP (fun e he => ?_) (fun e he => ?_) htail
      · obtain rfl := Option.some.inj he
        exact hslot.level_le
      · obtain rfl := Option.some.inj he
        exact hend
  | @forLoop exit P P₁ P₂ Q P' mid call back state names new i j extra K hinit hstate hthree _
      hnames henter hways _ hbase htarget hbody hopened hscope hcall hloop hagain hback hleft hround
      hpoint _ _ ih =>
    have hslot₂ := hnames.slotted (hstate.slotted hP)
    have hslot := hopened ▸ hbody.slotted hslot₂
    have hout : P'.held = P.held := by rw [hpoint]; rfl
    have hlen₁ : P₁.opened.length = P.opened.length + 3 := by
      rw [hstate.length_eq, hthree]
      rfl
    have hlen₂ : P₂.opened.length = P.opened.length + 3 + names.length := by
      rw [hnames.length_eq, hlen₁]
    have hheld : Set.Iio (P.opened.length + 3) ⊆ Q.held := by
      have hlen := hbody.suffix.length_le
      simp only [Point.at] at hlen
      exact Set.Iio_subset_Iio (by omega)
    rw [hout] at hend
    have hafter : P'.pc = back.pc + 1 := by rw [hpoint, Mark.pc_next]
    -- a round begins where the state is as it was made
    have hcalls : S.Safe n call.pc (Set.Iio (P.opened.length + 3)) := by
      clear hexit
      induction n with
      | zero => trivial
      | succ n hprev =>
        have hcall' := hprev hend.pred
        refine hcall.safe hS hproper (.pair hloop hproper hagain (hafter ▸ rfl) hback
          (fun m hm => (hend.of_le (Nat.le_of_lt hm)).mono hleft) fun m hm => ?_)
        have hbodySafe : S.Safe n (mid.pc + 1) P₂.held := by
          refine ih hslot₂ (fun e he => ?_) (fun e he => ?_)
            (hscope.safe hS hslot.level_le (hcall'.mono hheld))
          · obtain rfl := Option.some.inj he
            exact hslot.level_le
          · obtain rfl := Option.some.inj he
            refine hend.pred.mono (Set.Iio_subset_Iio ?_)
            simp only [Point.at]
            omega
        refine (hbodySafe.of_le (Nat.le_of_lt_succ hm)).mono ?_
        rw [Point.held, hlen₂]
        exact hround hproper
    refine hinit.safe hS hproper (.single henter hproper hways htarget fun m hm => ?_)
    exact (hcalls.of_le (Nat.le_of_lt hm)).mono (Instruction.subset_after hbase [])

/-! ## Functions -/

/-- A function is safe from its start, with its parameters written. -/
theorem Composed.safe {names : List String} {Q : Point} (h : Composed S proper names P Q)
    (hproper : proper) (n : Nat) : S.Safe n 0 (Set.Iio S.draft.paramCount) := by
  have hop := Instruction.opcode?_abc .ret 0 (countCode 0) 0
  have hpc : P.pc = 0 := by rw [h.pc_eq]
  have hheld : P.held = Set.Iio S.draft.paramCount := by
    rw [Point.held, h.params.length_eq, h.count, List.length_nil, Nat.zero_add]
  have hlast : S.Safe n Q.pc Q.held := by
    have hadm : S.Admits .ret 0 (countCode 0) 0 Q.held := .ret h.limited (by decide)
      ⟨Nat.zero_le _, Nat.zero_le _⟩ nofun fun r _ hr => absurd hr (by omega)
    refine .step h.last ((hadm.does h.last).ready trivial) fun m _ w hw => ?_
    rw [Instruction.ways_eq hop] at hw
    cases hw
  rw [← hpc, ← hheld]
  exact h.body.safe h.limited hproper h.slotted nofun nofun hlast

/-- Control goes on from a position, and more registers have been written or some
have been lost. -/
def Prototype.Advances (p : Prototype) (s t : Nat × Set Nat) : Prop :=
  ∃ i, p.code[s.1]? = some i ∧ ∃ w ∈ i.ways, i.target s.1 w.1 = t.1 ∧ t.2 = i.after w.2 s.2

/-- On every path through a function, the registers that an instruction reads have
been written when control reaches it. -/
def Prototype.Initialized (p : Prototype) : Prop :=
  ∀ t : Nat × Set Nat,
    Relation.ReflTransGen p.Advances (0, Set.Iio p.numParams.toNat) t →
    ∀ i, p.code[t.1]? = some i → i.Ready t.2

/-- What is safe for any number of steps stays so. -/
theorem Site.Safe.advances {o : Options} {s t : Nat × Set Nat} (h : ∀ n, S.Safe n s.1 s.2)
    (hstep : (S.draft.finish o).Advances s t) : ∀ n, S.Safe n t.1 t.2 := by
  intro n
  obtain ⟨i, hi, w, hw, htarget, hK⟩ := hstep
  obtain ⟨j, hj, -, hways⟩ := h (n + 1)
  obtain rfl := Option.some.inj (hi.symm.trans hj)
  rw [hK]
  exact hways w hw t.1 htarget

theorem Composed.initialized {names : List String} {Q : Point} (h : Composed S proper names P Q)
    (hproper : proper) : (S.draft.finish S.options).Initialized := by
  intro t hpath
  rw [h.fits.recorded.params] at hpath
  have hsafe : ∀ n, S.Safe n t.1 t.2 := by
    induction hpath with
    | refl => exact h.safe hproper
    | tail _ hstep ih => exact Site.Safe.advances ih hstep
  intro i hi
  obtain ⟨j, hj, hready, -⟩ := hsafe 1
  obtain rfl := Option.some.inj (hi.symm.trans hj)
  exact hready

/-- In every function of a chunk that compiles, no register is read before it has
been written, provided that no generic `for` of the chunk is without names. -/
theorem compile_initialized {block : Block} {o : Options} (hproper : block.Every Stat.Iterates)
    (hregs : o.registerLimit ≤ frameRegisters) (hconsts : o.constantLimit ≤ operandConstants)
    {p : Prototype} (h : compile block o = .ok p) : ∀ q ∈ p.family, q.Initialized := by
  intro q hq
  obtain ⟨S, names, P, Q, rfl, rfl, hcomp⟩ := compile_composes hregs hconsts h q hq
  exact hcomp.initialized hproper

/-- A chunk with open results, loops and a value that may be left out. -/
theorem compile_initialized_of_loops :
    let pass : Expr := .call ⟨.name "f", none, [.name "k", .vararg], 3⟩
    let block : Block := ⟨[
      .genericFor ["k"] [.vararg] ⟨[.declare ["a"] [.binary .or (.name "k") pass] 3,
        .ifChain [⟨.name "a", ⟨[.break 4], none, 4⟩, 4⟩]], none, 5⟩ 2,
      .repeatLoop ⟨[.declare ["b"] [.table [.item pass]] 6], none, 7⟩ (.name "b") 7],
      some [pass], 8⟩
    block.Every Stat.Iterates ∧ ∃ p, compile block {} = .ok p ∧ ∀ q ∈ p.family, q.Initialized := by
  intro pass block
  have hproper : block.Every Stat.Iterates := by
    simp [block, pass, Block.Every, Stat.EveryIn, Stat.Every, Stat.Iterates, Expr.EveryIn,
      Expr.Every, Field.Every, Call.Every, Branch.Every]
  obtain ⟨p, hp⟩ := compile_of_isOk block {} (by decide +kernel)
  exact ⟨hproper, p, hp, compile_initialized hproper le_rfl le_rfl hp⟩

end LuaLowering
