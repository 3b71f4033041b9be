import LuaLowering.Proofs.Lowering
import LuaLowering.Proofs.Execution.Assignment

/-!
# Compiled chunks do what their source means

Every way in which a phrase of the first-order fragment can run is followed by its
code. The proof is by induction on the run, one lemma for each of its rules, and
says nothing of a chunk that does not end: the meaning has no run of it either.
-/

namespace LuaLowering

open Machine

variable {A : Arithmetic} {S : Site} {m m' : Memory} {o : Outcome}

/-- The code of a phrase does what takes one memory to another. -/
def Phrase.Simulated (A : Arithmetic) (S : Site) (m : Memory) (o : Outcome) (m' : Memory) :
    Phrase → Prop
  | .stat s => s.FirstOrder → s.shape.Simulates A S m o m'
  | .stats ss => Stat.AllFirstOrder ss → (Stat.shapeAll ss).Simulates A S m o m'
  | .body b => b.FirstOrder → b.shape.Simulates A S m o m'
  | .arms bs => Branch.AllFirstOrder bs → (IfIs (Branch.parts bs)).Simulates A S m o m'
  | .rounds var n limit step b =>
    PlainName var → b.FirstOrder → RoundsAre.Simulates A S var b.shape n limit step m o m'

/-- A block of the fragment never returns a call. -/
theorem Block.shape_return {ss : List Stat} {es : List Expr} {line : Nat}
    (hes : ∀ e ∈ es, e.FirstOrder) :
    Block.shape ⟨ss, some es, line⟩ = SeqIs (Stat.shapeAll ss) (ReturnIs (Expr.parts es)) := by
  rw [Block.shape.eq_def]
  dsimp only
  split
  · next hnone => cases hnone
  · next c hcall =>
    obtain rfl := Option.some.inj hcall
    exact absurd (hes _ List.mem_cons_self) (by simp [Expr.FirstOrder])
  · next hsome =>
    obtain rfl := Option.some.inj hsome
    rfl

theorem Target.parts_names (names : List String) :
    Target.parts (names.map .name) = names.map .name := by
  induction names with
  | nil => rfl
  | cons x rest ih => rw [List.map_cons, Target.parts, ih, List.map_cons]

theorem BreakIs.simulates : BreakIs.Simulates A S m .broke m := by
  intro hidden regs exit P P' h _ hm
  obtain ⟨e, rfl, hjump, -⟩ := h
  exact ⟨e, regs, P.opened, rfl, hjump.reaches, List.suffix_refl _, hm⟩

/-- The code of every phrase follows every run of it. -/
theorem Runs.simulated {ph : Phrase} (hS : S.Chunk) (h : Runs A ph m o m') :
    ph.Simulated A S m o m' := by
  induction h with
  | empty =>
    intro _ hidden regs exit P P' hshape _ hm
    obtain rfl : P' = P := hshape
    exact ⟨regs, .refl, hm⟩
  | «break» =>
    intro _
    rw [Stat.shape]
    exact BreakIs.simulates
  | block _ ih =>
    intro hfirst
    rw [Stat.shape]
    exact ScopedIs.simulates (ih hfirst)
  | declare hvalues =>
    intro hfirst
    rw [Stat.shape]
    rw [← Expr.evalAll_parts] at hvalues
    exact DeclareIs.simulates hS (Expr.parts_computes hS hfirst.2) hfirst.1 hvalues
  | assign hvalues =>
    intro hfirst
    rw [Stat.shape, Target.parts_names]
    rw [← Expr.evalAll_parts] at hvalues
    refine AssignIs.simulates hS (Expr.parts_computes hS hfirst.2) (fun x hx => ?_) hvalues
    exact hfirst.1 _ (List.mem_map_of_mem hx)
  | whileDone hcond hfalse =>
    intro hfirst
    rw [Stat.shape]
    exact WhileIs.simulates_done hS (Expr.computes hS hfirst.1) hfirst.1 hcond hfalse
  | whileAgain hcond htrue _ _ ihbody ihmore =>
    intro hfirst
    rw [Phrase.Simulated, Stat.shape] at ihmore
    rw [Stat.shape]
    exact WhileIs.simulates_again hS (Expr.computes hS hfirst.1) hfirst.1 hcond htrue
      (ihbody hfirst.2) (ihmore hfirst)
  | whileLeft hcond htrue _ hout ihbody =>
    intro hfirst
    rw [Stat.shape]
    exact WhileIs.simulates_left hS (Expr.computes hS hfirst.1) hfirst.1 hcond htrue
      (ihbody hfirst.2) hout
  | repeatDone _ hcond htrue ihbody =>
    intro hfirst
    rw [Stat.shape]
    exact RepeatIs.simulates_done hS (Expr.computes hS hfirst.2) hfirst.2 (ihbody hfirst.1)
      Block.shape_opens hcond htrue
  | repeatAgain _ hcond hfalse _ ihbody ihmore =>
    intro hfirst
    rw [Phrase.Simulated, Stat.shape] at ihmore
    rw [Stat.shape]
    exact RepeatIs.simulates_again hS (Expr.computes hS hfirst.2) hfirst.2 (ihbody hfirst.1)
      Block.shape_opens hcond hfalse (ihmore hfirst)
  | repeatLeft _ hout ihbody =>
    intro hfirst
    rw [Stat.shape]
    exact RepeatIs.simulates_left (ihbody hfirst.1) hout
  | ifChain _ ih =>
    intro hfirst
    rw [Stat.shape]
    exact ih hfirst
  | @numericFor _ init limit step _ _ _ _ _ _ _ _ _ _ hinit hlimit hstep hbefore _ ih =>
    intro hfirst
    obtain ⟨hvar, hinit', hlimit', hstep', hbody⟩ := hfirst
    have hby : (step.getD (.integer 1)).FirstOrder := by
      cases step with
      | none => trivial
      | some e => exact hstep' e rfl
    have hall : ∀ e ∈ [init, limit, step.getD (.integer 1)], e.FirstOrder := by
      simpa using ⟨hinit', hlimit', hby⟩
    have hparts := Expr.parts_computes (A := A) hS hall
    rw [Stat.shape_numericFor]
    exact NumericForIs.simulates hS hparts hinit hlimit hstep hbefore (ih hvar hbody)
  | nil =>
    intro _ hidden regs exit P P' hshape _ hm
    obtain rfl : P' = P := hshape
    exact ⟨regs, .refl, hm⟩
  | cons _ _ ihfirst ihrest =>
    intro hfirst
    rw [Stat.shapeAll]
    exact SeqIs.simulates (ihfirst hfirst.1) (ihrest hfirst.2) hS Stat.shape_opens
  | stop _ hout ihfirst =>
    intro hfirst
    rw [Stat.shapeAll]
    exact SeqIs.simulates_left (ihfirst hfirst.1) hout
  | body _ ih =>
    intro hfirst
    rw [Block.shape]
    exact ih hfirst.1
  | bodyLeft _ hout ih =>
    intro hfirst
    rw [Block.shape_return (hfirst.2 _ rfl)]
    exact SeqIs.simulates_left (ih hfirst.1) hout
  | bodyReturn _ hvalues ih =>
    intro hfirst
    rw [Block.shape_return (hfirst.2 _ rfl)]
    rw [← Expr.evalAll_parts] at hvalues
    exact SeqIs.simulates (ih hfirst.1)
      (ReturnIs.simulates hS (Expr.parts_computes hS (hfirst.2 _ rfl)) hvalues) hS
      Stat.shapeAll_opens
  | armsDone =>
    intro _ hidden regs exit P P' hshape _ hm
    obtain rfl : P' = P := hshape
    exact ⟨regs, .refl, hm⟩
  | armTaken hcond htrue _ ih =>
    intro hfirst
    rw [Branch.parts]
    exact IfIs.simulates_taken hS (Expr.computes hS hfirst.1) hfirst.1 hcond htrue (ih hfirst.2.1)
  | armSkipped hcond hfalse _ ih =>
    intro hfirst
    rw [Branch.parts]
    exact IfIs.simulates_skipped hS (Expr.computes hS hfirst.1) hfirst.1 hcond hfalse
      (ih hfirst.2.2)
  | roundsDone hpast =>
    intro _ _
    exact RoundsAre.simulates_done hS hpast
  | roundsAgain hin _ hnext _ ihbody ihmore =>
    intro hvar hbody
    exact RoundsAre.simulates_again hS hvar Block.shape_opens hin (ihbody hbody) hnext
      (ihmore hvar hbody)
  | roundsLeft hin _ hout ihbody =>
    intro hvar hbody
    exact RoundsAre.simulates_left hS hvar hin (ihbody hbody) hout

/-- A chunk of the fragment, run from its first instruction, returns what it means. -/
theorem WrittenIs.halts {b : Block} {g g' : Globals} {values : List Value} (hS : S.Chunk)
    (hwritten : WrittenIs [] b.shape S) (hfirst : b.FirstOrder)
    (h : b.Returns A g values g') : S.Halts A (Machine.start g) values g' := by
  obtain ⟨P, Q, hparams, hbody, hret, -⟩ := hwritten
  obtain rfl : P = ⟨⟨0, 0⟩, [], 0⟩ := hparams
  obtain ⟨o, m, hrun, rfl, hout⟩ := h
  have hempty : Holds S (fun _ => .nil) (fun _ => .nil) [] [] := .nil
  have hfollow := Runs.simulated hS hrun hfirst hbody (by simp) hempty
  rcases hout with rfl | ⟨rfl, rfl⟩
  · exact hfollow
  · obtain ⟨regs, hreach, -⟩ := hfollow
    exact Reaches.halts hreach (hret.ret (n := 0) (by omega) (by omega))

/-- Compilation keeps the meaning of first-order chunks: where a chunk returns
values and leaves the globals in some state, the machine on its compiled code does
too, whatever is made of sums out of range. -/
theorem compile_run {b : Block} {o : Options} {p : Prototype} {A : Arithmetic} {g g' : Globals}
    {values : List Value} (hfirst : b.FirstOrder) (hregisters : o.registerLimit ≤ 255)
    (hconstants : o.constantLimit ≤ 255) (hcompile : compile b o = .ok p)
    (hpool : p.constants.size ≤ 0x40000) (h : b.Returns A g values g') :
    ∃ n, Machine.run A p n (Machine.start g) = some (values, g') := by
  obtain ⟨d, rfl, hup, hwritten⟩ := compile_written hregisters hcompile
  have hS : Site.Chunk ⟨o, d, []⟩ := by
    refine ⟨rfl, fun c hc => ?_, hregisters, hconstants, hpool⟩
    have hglobals : d.upvalues = #[.globals] := hup
    rw [show (Site.mk o d []).draft.upvalues = d.upvalues from rfl, hglobals] at hc
    obtain rfl : c = .globals := by simpa using hc
    rfl
  exact (WrittenIs.halts hS hwritten hfirst h).run

/-- A loop that sums up to three, and is left by a `break` in its second round. -/
theorem compile_run_of_loop :
    let sum : Stat := .assign (["n"].map .name) [.binary .add (.name "n") (.name "i")] 3
    let check : Stat := .ifChain [⟨.binary .eq (.name "n") (.integer 3), ⟨[.break 4], none, 4⟩, 4⟩]
    let block : Block := ⟨[.declare ["n"] [.integer 0] 1,
      .numericFor "i" (.integer 1) (.integer 9) none ⟨[sum, check], none, 5⟩ 2 2,
      .assign (["total"].map .name) [.name "n"] 6], some [.name "n"], 7⟩
    let g : Globals := fun _ => none
    let g' := g.write "total" (.integer 3)
    ∃ p, compile block {} = .ok p ∧ p.constants.size ≤ 0x40000 ∧ block.FirstOrder ∧
      block.Returns .wrapping g [.integer 3] g' ∧
      ∃ n, Machine.run .wrapping p n (Machine.start g) = some ([.integer 3], g') := by
  intro sum check block g g'
  have hfirst : block.FirstOrder := by
    simp [block, sum, check, Block.FirstOrder, Stat.AllFirstOrder, Stat.FirstOrder,
      Branch.AllFirstOrder, Target.FirstOrder, Expr.FirstOrder, BinaryOp.isFirstOrder, PlainName]
  have hreturns : block.Returns .wrapping g [.integer 3] g' := by
    have hfirstRound : Runs .wrapping (.body ⟨[sum, check], none, 5⟩)
        ⟨[("i", .integer 1), ("n", .integer 0)], g⟩ .normal
        ⟨[("i", .integer 1), ("n", .integer 1)], g⟩ :=
      .body (.cons (.assign rfl) (.cons (.ifChain (.armSkipped rfl rfl .armsDone)) .nil))
    have hlastRound : Runs .wrapping (.body ⟨[sum, check], none, 5⟩)
        ⟨[("i", .integer 2), ("n", .integer 1)], g⟩ .broke
        ⟨[("i", .integer 2), ("n", .integer 3)], g⟩ :=
      .body (.cons (.assign rfl)
        (.stop (.ifChain (.armTaken rfl rfl (.body (.stop .break (fun h => by cases h)))))
          (fun h => by cases h)))
    have hlast : Runs .wrapping (.rounds "i" 2 9 1 ⟨[sum, check], none, 5⟩)
        ⟨[("n", .integer 1)], g⟩ (Outcome.broke.afterLoop) _ := .roundsLeft rfl hlastRound
          fun h => by cases h
    have hloop : Runs .wrapping (.rounds "i" 1 9 1 ⟨[sum, check], none, 5⟩)
        ⟨[("n", .integer 0)], g⟩ .normal ⟨[("n", .integer 3)], g⟩ :=
      .roundsAgain rfl hfirstRound rfl hlast
    exact ⟨_, _, .bodyReturn (.cons (.declare rfl) (.cons (.numericFor rfl rfl rfl rfl hloop)
      (.cons (.assign rfl) .nil))) rfl, rfl, Or.inl rfl⟩
  have hok : ((compile block {}).toOption.any fun p => p.constants.size ≤ 0x40000) = true := by
    decide +kernel
  cases h : compile block {} with
  | ok p =>
    rw [h] at hok
    have hpool : p.constants.size ≤ 0x40000 := of_decide_eq_true hok
    exact ⟨p, rfl, hpool, hfirst, hreturns,
      compile_run hfirst le_rfl le_rfl h hpool hreturns⟩
  | error e =>
    rw [h] at hok
    cases hok

end LuaLowering
