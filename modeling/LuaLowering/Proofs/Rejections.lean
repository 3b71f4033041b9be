import LuaLowering.Proofs.Lowering
import LuaLowering.Proofs.Vetting

/-!
# Why a chunk is rejected

The verdict on a chunk is decided by its offences as long as it stays within the
limits of the machine. A chunk with an offence never compiles, one without is
rejected for a limit only, and a rejection for an offence names the first one.
-/

namespace LuaLowering

open LowerM

variable {block : Block} {o : Options}

/-- Compiling a chunk vets it from a place outside all loops. -/
theorem compileChunk_vets (block : Block) (o : Options) :
    Vets (compileChunk block) (.main o) (block.offences false) fun _ _ => True := by
  unfold compileChunk
  refine vets_update_bind rfl ?_
  refine (writeBody_vets (Block.lower_extends block) [] block.lastLine rfl).finally
    fun _ w _ => ?_
  rw [vets_view_bind, finishFunction, bind_assoc, vets_options_bind, bind_assoc]
  refine ((record_neutral _).vets w).andThen fun _ w₁ _ => ?_
  rw [vets_pure_bind]
  exact ((record_neutral _).vets w₁).andThen fun _ _ _ => vets_pure.mpr ⟨rfl, trivial⟩

theorem seesGlobals_main (o : Options) : (Workspace.main o).SeesGlobals :=
  Or.inl ⟨.globals, by simp [Workspace.main, Draft.main, Capture.globals], rfl⟩

/-- A chunk is rejected for its first offence or for a limit. -/
theorem compile_rejected {why : Rejection} (h : compile block o = .error (.rejected why)) :
    why.IsLimit ∨ ∃ offence, (block.offences false).head? = some offence ∧
      why = offence.rejection := by
  unfold compile compileTraced at h
  cases hrun : compileChunk block (.main o) with
  | ok p w =>
    rw [hrun] at h
    cases h
  | error e w =>
    rw [hrun] at h
    cases h
    rcases (compileChunk_vets block o).of_rejected hrun with hlimit | hhead | ⟨hno, -⟩
    · exact Or.inl hlimit
    · obtain ⟨offence, hfirst, hwhy⟩ := Option.map_eq_some_iff.mp hhead
      exact Or.inr ⟨offence, hfirst, hwhy.symm⟩
    · exact absurd (seesGlobals_main o) hno

theorem compile_ok {p : Prototype} (h : compile block o = .ok p) : block.offences false = [] := by
  unfold compile compileTraced at h
  cases hrun : compileChunk block (.main o) with
  | ok p w => exact ((compileChunk_vets block o).of_ok hrun).1
  | error e w =>
    rw [hrun] at h
    cases h

theorem compile_misused (ho : o.registerLimit ≤ frameRegisters) {how : Misuse}
    (h : compile block o = .error (.misused how)) : ¬ block.ListsWithin maxListLength := by
  have hlists : block.ListsWithin maxListLength → block.ListsWithin maxListLength := id
  have hspec := compileChunk_spec hlists ho
  unfold compile compileTraced at h
  cases hrun : compileChunk block (.main o) with
  | ok p w =>
    rw [hrun] at h
    cases h
  | error e w =>
    rw [hrun] at h
    cases h
    exact hspec.not_misused hrun

/-- How the outcome of compiling a chunk depends on its offences. -/
structure Block.Classified (block : Block) (outcome : Except Stop Prototype) : Prop where
  clean : ∀ p, outcome = .ok p → block.offences false = []
  limits : block.offences false = [] → ∀ why, outcome = .error (.rejected why) → why.IsLimit
  first : ∀ offence : Offence, outcome = .error (.rejected offence.rejection) →
    (block.offences false).head? = some offence
  globals : ∀ line, outcome ≠ .error (.rejected (.noGlobals line))
  contract : ∀ how, outcome = .error (.misused how) → ¬ block.ListsWithin maxListLength

/-- The outcome of every compilation is classified by the offences of the chunk. -/
theorem compile_classified (block : Block) {o : Options} (ho : o.registerLimit ≤ frameRegisters) :
    block.Classified (compile block o) where
  clean := fun _ h => compile_ok h
  limits := fun hnone why h => by
    rcases compile_rejected h with hlimit | ⟨offence, hfirst, -⟩
    · exact hlimit
    · rw [hnone] at hfirst
      cases hfirst
  first := fun offence h => by
    rcases compile_rejected h with hlimit | ⟨other, hfirst, hsame⟩
    · exact absurd hlimit offence.not_isLimit
    · rw [hfirst, offence.rejection_injective hsame]
  globals := fun line h => by
    rcases compile_rejected h with hlimit | ⟨offence, -, hsame⟩
    · exact hlimit
    · exact offence.rejection_ne_noGlobals line hsame.symm
  contract := fun _ h => compile_misused ho h

/-- A loop with a `break` of its own, a function with a `break` inside it and a
`goto`: the loop does not reach into the function. -/
theorem compile_classified_of_function_in_loop :
    let f : FunctionBody := ⟨[], false, ⟨[.break 3], none, 4⟩, 2, 4⟩
    let body : Block := ⟨[.break 2, .declareFunction "f" f, .goto "l" 5], none, 6⟩
    let block : Block := ⟨[.whileLoop (.boolean true) body 1], none, 6⟩
    compile block {} = .error (.rejected (.strayBreak 3)) ∧
      (block.offences false).head? = some (.strayBreak 3) := by
  intro f body block
  have hstop : (match compile block {} with
      | .error e => decide (e = .rejected (.strayBreak 3))
      | .ok _ => false) = true := by decide +kernel
  cases hrun : compile block {} with
  | ok p =>
    rw [hrun] at hstop
    cases hstop
  | error e =>
    rw [hrun] at hstop
    obtain rfl := of_decide_eq_true hstop
    exact ⟨rfl, (compile_classified block le_rfl).first (.strayBreak 3) hrun⟩

end LuaLowering
