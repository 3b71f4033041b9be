import LuaLowering.Proofs.Canonical
import LuaLowering.Proofs.Shape.Opened
import LuaLowering.Proofs.Flow.Effects
import LuaLowering.Proofs.Flow.Everywhere

/-!
# Structured code

What is left of a syntax tree when only the flow of control, the registers and the
scopes matter. `Code` is the code of expressions: control enters it at the front
and leaves it at the end, and on the way more and more registers have been
written. `Flow` is the code of statements, which may also leave a loop. Both say of
every instruction that its operands name what exists and that it reads nothing
that has not been written.

The one thing that can go wrong is a generic `for` that gives no name to the
values it iterates over. Where the text is `proper` there is none, and only there
the operands and reads of the loop's own instructions are vouched for.
-/

namespace LuaLowering

/-! ## Bounds -/

/-- How much of everything a function has that operands can name. -/
structure Bounds where
  stack : Nat
  constants : Nat
  upvalues : Nat
  nested : Nat

/-- All that an instruction names exists. -/
structure Instruction.Within (i : Instruction) (b : Bounds) : Prop where
  registers : ∀ r ∈ i.registers, r < b.stack
  constants : ∀ k ∈ i.constants, k < b.constants
  upvalues : ∀ u ∈ i.upvalues, u < b.upvalues
  nested : ∀ k ∈ i.nested?, k < b.nested

namespace Site

/-- What the instructions of a finished function can name. -/
def bounds (S : Site) : Bounds :=
  ⟨S.peak, S.draft.constants.size, S.draft.upvalues.size, S.draft.nested.size⟩

/-- An instruction stands at a position where some registers have been written. -/
structure Does (S : Site) (proper : Prop) (pc : Nat) (i : Instruction) (K : Set Nat) : Prop where
  code : S.Has pc i
  canonical : i.Canonical
  ready : proper → i.Ready K
  within : proper → i.Within S.bounds

/-- A nested function is one of the source, written where some locals are open. -/
def Makes (S : Site) (proper : Prop) (opened : List Nat) (k : Nat) : Prop :=
  ∃ (f : FunctionBody) (inner : Draft), S.draft.nested[k]? = some (inner.finish S.options) ∧
    (∀ c ∈ inner.upvalues, c.FromFrame ⟨S.draft, opened⟩) ∧
    (proper → f.Every Stat.Iterates) ∧
    f.written ⟨S.options, inner, ⟨S.draft, opened⟩ :: S.outer⟩

end Site

/-! ## Expressions -/

/-- Code that control enters at the front, with some registers written, and leaves
at the end, with others written. -/
inductive Code (S : Site) (proper : Prop) (opened : List Nat) :
    Set Nat → Mark → Mark → Set Nat → Prop
  | drop {K K' : Set Nat} {m : Mark} (h : K' ⊆ K) : Code S proper opened K m m K'
  | seq {K K₁ K' : Set Nat} {lo mid hi : Mark} (hfirst : Code S proper opened K lo mid K₁)
      (hrest : Code S proper opened K₁ mid hi K') : Code S proper opened K lo hi K'
  | step {K : Set Nat} {lo : Mark} {i : Instruction} (hdo : S.Does proper lo.pc i K)
      (hways : i.ways = [(.next, [])]) (hnone : i.nested? = none) :
      Code S proper opened K lo lo.next (i.after [] K)
  -- a far constant takes two words
  | far {K : Set Nat} {lo : Mark} {i j : Instruction} (hdo : S.Does proper lo.pc i K)
      (hop : i.opcode? = some .loadKx) (hextra : S.Does proper (lo.pc + 1) j K)
      (hop' : j.opcode? = some .extraArg) :
      Code S proper opened K lo lo.next.next (i.after [] K)
  | closure {K : Set Nat} {lo : Mark} {a : Nat}
      (hdo : S.Does proper lo.pc (.abx .closure a lo.nested) K)
      (hmakes : S.Makes proper opened lo.nested) :
      Code S proper opened K lo ⟨lo.pc + 1, lo.nested + 1⟩
        ((Instruction.abx .closure a lo.nested).after [] K)
  -- an operand that may be left out
  | either {K K' : Set Nat} {lo hi : Mark} {i : Instruction} (hdo : S.Does proper lo.pc i K)
      (hop : i.opcode? = some .testSet) (hjump : S.Jumps .jmp (lo.pc + 1) 0 hi.pc)
      (hrest : Code S proper opened K lo.next.next hi K')
      (hkeep : K' ⊆ i.after [.one i.a] K) : Code S proper opened K lo hi K'
  -- a comparison and the two ways to load its outcome
  | compare {K : Set Nat} {lo : Mark} {i j k : Instruction} {op : Opcode}
      (hdo : S.Does proper lo.pc i K)
      (hop : i.opcode? = some op) (htest : op = .eq ∨ op = .lt ∨ op = .le)
      (hjump : S.Jumps .jmp (lo.pc + 1) 0 (lo.pc + 3))
      (hfalse : S.Does proper (lo.pc + 2) j K) (hskip : j.ways = [(.skip, [])])
      (htrue : S.Does proper (lo.pc + 3) k K) (hnext : k.ways = [(.next, [])])
      (hload : k.opcode? = some .loadBool) (hsame : j.after [] K = k.after [] K) :
      Code S proper opened K lo ⟨lo.pc + 4, lo.nested⟩ (k.after [] K)

/-- A condition is computed and tested. Control goes on behind it, or jumps to
`target` and closes what `a` says. -/
inductive Tested (S : Site) (proper : Prop) (opened : List Nat) (a target : Nat) :
    Mark → Mark → Prop
  | intro {K : Set Nat} {lo mid : Mark} {i : Instruction}
      (hcond : Code S proper opened (Set.Iio opened.length) lo mid K)
      (hheld : Set.Iio opened.length ⊆ K)
      (hdo : S.Does proper mid.pc i K) (hop : i.opcode? = some .test)
      (hjump : S.Jumps .jmp (mid.pc + 1) a target) :
      Tested S proper opened a target lo mid.next.next

/-! ## Statements -/

/-- The registers of the open locals. -/
def Point.held (P : Point) : Set Nat := Set.Iio P.opened.length

/-- Code of statements. Between two of them the registers of the open locals have
been written, and no others count. -/
inductive Flow (S : Site) (proper : Prop) : Option Exit → Point → Point → Prop
  | skip {exit : Option Exit} {P : Point} : Flow S proper exit P P
  | seq {exit : Option Exit} {P Q P' : Point} (hfirst : Flow S proper exit P Q)
      (hrest : Flow S proper exit Q P') : Flow S proper exit P P'
  -- values are loaded and become locals; a function sees itself
  | declare {exit : Option Exit} {P P' : Point} {hi : Mark} {names : List String}
      {opened : List Nat}
      (hcode : Code S proper opened P.held P.toMark hi (Set.Iio (P.opened.length + names.length)))
      (hsees : opened = P.opened ∨ opened = P'.opened ∧ hi.pc = P.pc + 1)
      (hdecl : Declares S hi.pc names (P.at hi) P') : Flow S proper exit P P'
  | leave {exit : Option Exit} {P : Point} {e : Exit} (hexit : exit = some e)
      (hjump : S.Jumps .jmp P.pc e.close e.target) : Flow S proper exit P (P.at P.next)
  | ret {exit : Option Exit} {P : Point} {mid : Mark} {K : Set Nat} {i : Instruction}
      (hcode : Code S proper P.opened P.held P.toMark mid K) (hdo : S.Does proper mid.pc i K)
      (hop : i.opcode? = some .ret) : Flow S proper exit P (P.at mid.next)
  | scope {exit : Option Exit} {P Q P' : Point} {new : List Nat}
      (hbody : Flow S proper (exit.map (·.inside (S.level new))) P Q)
      (hopened : Q.opened = new ++ P.opened)
      (hclose : ClosesTo S (S.level new) Q.toMark P'.toMark) (hend : S.EndAt P'.pc new)
      (hsame : P'.opened = P.opened) (hdecl : P'.declared = Q.declared) : Flow S proper exit P P'
  | lastArm {exit : Option Exit} {P P' : Point} {top : Mark}
      (htest : Tested S proper P.opened 0 P'.pc P.toMark top)
      (hbody : Flow S proper exit (P.at top) P') (hsame : P'.opened = P.opened) :
      Flow S proper exit P P'
  | arm {exit : Option Exit} {P Q P' : Point} {top : Mark}
      (htest : Tested S proper P.opened 0 (Q.pc + 1) P.toMark top)
      (hbody : Flow S proper exit (P.at top) Q) (hjump : S.Jumps .jmp Q.pc 0 P'.pc)
      (hrest : Flow S proper exit (Q.at Q.next) P') (hmid : Q.opened = P.opened)
      (hsame : P'.opened = P.opened) : Flow S proper exit P P'
  | whileLoop {exit : Option Exit} {P Q P' : Point} {top back : Mark} {new : List Nat}
      (htest : Tested S proper P.opened 0 P'.pc P.toMark top)
      (hbody : Flow S proper (some ⟨P'.pc, S.level new⟩) (P.at top) Q)
      (hopened : Q.opened = new ++ P.opened) (hclose : ClosesTo S (S.level new) Q.toMark back)
      (hjump : S.Jumps .jmp back.pc 0 P.pc) (hpoint : P' = ⟨back.next, P.opened, Q.declared⟩)
      (hend : S.EndAt P'.pc new) : Flow S proper exit P P'
  | repeatLoop {exit : Option Exit} {P Q P' : Point} {bottom : Mark} {new : List Nat}
      (hbody : Flow S proper (some ⟨P'.pc, S.level new⟩) P Q)
      (hopened : Q.opened = new ++ P.opened)
      (htest : Tested S proper Q.opened (S.level new) P.pc Q.toMark bottom)
      (hclose : ClosesTo S (S.level new) bottom P'.toMark) (hend : S.EndAt P'.pc new)
      (hsame : P'.opened = P.opened) (hdecl : P'.declared = Q.declared) : Flow S proper exit P P'
  -- the state of the loop is three hidden locals, which outlive the others
  | forLoop {exit : Option Exit} {P P₁ P₂ Q P' : Point} {mid call back : Mark}
      {state names : List String} {new : List Nat} {i j : Instruction} {extra : List Span}
      {K : Set Nat}
      (hinit : Code S proper P.opened P.held P.toMark mid (Set.Iio (P.opened.length + 3)))
      (hstate : Declares S mid.pc state (P.at mid) P₁)
      (hthree : state.length = 3) (hhidden : ∀ x ∈ state, x.toList.head? = some '(')
      (hnames : Declares S (mid.pc + 1) names P₁ P₂)
      (henter : S.Does proper mid.pc i (Set.Iio (P.opened.length + 3)))
      (hways : i.ways = [(.jump, [])]) (hquiet : i.closes? = none) (hbase : i.base? = none)
      (htarget : i.target mid.pc .jump = call.pc)
      (hbody : Flow S proper (some ⟨P'.pc, S.level new⟩) (P₂.at mid.next) Q)
      (hopened : Q.opened = new ++ P.opened) (hclose : ClosesTo S (S.level new) Q.toMark call)
      (hcall : Code S proper P.opened (Set.Iio (P.opened.length + 3)) call back K)
      (hloop : S.Does proper back.pc j K) (hagain : j.ways = [(.next, []), (.jump, extra)])
      (hback : j.target back.pc .jump = mid.pc + 1)
      (hleft : P.held ⊆ j.after [] K)
      (hround : proper → Set.Iio (P.opened.length + 3 + names.length) ⊆ j.after extra K)
      (hpoint : P' = ⟨back.next, P.opened, Q.declared⟩)
      (hend : S.EndAt P'.pc (new.filter (· < P.declared + 3)))
      (hend' : S.EndAt call.pc (new.filter (P.declared + 3 ≤ ·))) : Flow S proper exit P P'

/-! ## Positions -/

variable {S : Site} {proper : Prop} {opened : List Nat} {K K' : Set Nat} {lo hi : Mark}
  {exit : Option Exit} {P P' : Point}

theorem Code.le (h : Code S proper opened K lo hi K') : lo.pc ≤ hi.pc := by
  induction h with
  | drop => exact le_rfl
  | seq _ _ ih ih' => exact Nat.le_trans ih ih'
  | step | closure => exact Nat.le_succ _
  | far | compare =>
    simp only [Mark.pc_next]
    omega
  | either _ _ _ _ _ ih =>
    simp only [Mark.pc_next] at ih
    omega

/-- Where nothing is written in the code, nothing is written in the registers. -/
theorem Code.subset (h : Code S proper opened K lo hi K') (hpc : hi.pc ≤ lo.pc) : K' ⊆ K := by
  induction h with
  | drop hsub => exact hsub
  | seq hfirst hrest ih ih' =>
    have hle := hfirst.le
    have hle' := hrest.le
    exact (ih' (by omega)).trans (ih (by omega))
  | step | far | closure | compare =>
    simp only [Mark.pc_next] at hpc
    omega
  | either _ _ _ hrest =>
    have hle := hrest.le
    simp only [Mark.pc_next] at hle
    omega

theorem Tested.lt {a target : Nat} (h : Tested S proper opened a target lo hi) :
    lo.pc + 2 ≤ hi.pc := by
  obtain ⟨hcond, -, -, -, -⟩ := h
  have hle := hcond.le
  simp only [Mark.pc_next]
  omega

theorem ClosesTo.le {level : Nat} (h : ClosesTo S level lo hi) : lo.pc ≤ hi.pc := by
  rw [ClosesTo] at h
  split at h
  · rw [h]
  · rw [h.2, Mark.pc_next]
    exact Nat.le_succ _

theorem Point.pc_at (P : Point) (m : Mark) : (P.at m).pc = m.pc := rfl

theorem Flow.le (h : Flow S proper exit P P') : P.pc ≤ P'.pc := by
  induction h with
  | skip => exact le_rfl
  | seq _ _ ih ih' => exact Nat.le_trans ih ih'
  | declare hcode _ hdecl => rw [hdecl.pc_eq]; exact hcode.le
  | leave => exact Nat.le_succ _
  | ret hcode => exact Nat.le_succ_of_le hcode.le
  | scope _ _ hclose _ _ _ ih => exact Nat.le_trans ih hclose.le
  | lastArm htest _ _ ih =>
    have hlt := htest.lt
    rw [Point.pc_at] at ih
    omega
  | arm htest _ _ _ _ _ ih ih' =>
    have hlt := htest.lt
    simp only [Point.pc_at, Mark.pc_next] at ih ih'
    omega
  | whileLoop htest _ _ hclose _ hpoint _ ih =>
    have hlt := htest.lt
    have hle := hclose.le
    simp only [Point.pc_at] at ih
    simp only [hpoint, Mark.pc_next]
    omega
  | repeatLoop _ _ htest hclose _ _ _ ih =>
    have hlt := htest.lt
    have hle := hclose.le
    omega
  | forLoop hinit _ _ _ _ _ _ _ _ _ _ _ hclose hcall _ _ _ _ _ hpoint _ _ ih =>
    have hle := hinit.le
    have hle' := hclose.le
    have hle'' := hcall.le
    simp only [Point.pc_at, Mark.pc_next] at ih
    simp only [hpoint, Mark.pc_next]
    omega

end LuaLowering
