import LuaLowering.Proofs.Lockstep
import LuaLowering.Proofs.Surroundings
import LuaLowering.Proofs.Words

/-!
# A nested function leaves the functions around it intact

While a function is written inside others, all of these are in the hands of the new one, and
it reaches into them whenever a name turns out to be theirs. Still they come back as they
were, whether the function could be written or not, and from whatever depth a rejection came.
All that may be left behind is what capturing leaves: a mark on a local that a name stands
for, and outer variables behind those that were there. If the function could be written, the
one around it also has the finished function, and an instruction that makes a closure of it.
-/

namespace LuaLowering

open LowerM

/-- A function that was finished inside was taken in: it is the last one, and the last
instruction makes a closure of it. Else there is only what capturing changes. -/
structure Draft.TakesIn (d : Draft) (a line : Nat) (d' : Draft) : Prop where
  nested : ∃ p, d'.nested = d.nested.push p
  code : ∃ i, d'.code = d.code.push i ∧ i.opcode? = some .closure ∧ i.a = a % 0x100 ∧
    i.bx = d.nested.size % 0x40000
  lines : d'.lines = d.lines.push line
  rest : d.Marked { d' with nested := d.nested, code := d.code, lines := d.lines }

/-- What lowering a function does to the functions around it. -/
structure Workspace.Encloses (w : Workspace) (f : FunctionBody) (a : Nat) : Prop where
  rejected : ∀ why w', f.lower a w = .error (.rejected why) w' →
    w'.options = w.options ∧ List.Forall₂ Draft.Marked w.stack w'.stack
  finished : ∀ w', f.lower a w = .ok () w' →
    w'.options = w.options ∧ w.draft.TakesIn a f.lastLine w'.draft ∧
      List.Forall₂ Draft.Marked w.enclosing w'.enclosing

section

variable {w inner : Workspace}

/-- The closure is written after the function was taken in. -/
theorem Workspace.WorksOn.takesIn {w' : Workspace} {line a : Nat} (h : w.enter.WorksOn inner)
    (hrun : Emit.closure line a inner.leave.draft.nested.size inner.adopt = .ok () w') :
    w'.options = inner.leave.options ∧ w.draft.TakesIn a line w'.draft ∧
      w'.enclosing = inner.leave.enclosing := by
  have hmarked := h.marked
  cases hrun
  have hnested : inner.leave.draft.nested = w.draft.nested := by rw [hmarked.rest]
  have hcode : inner.leave.draft.code = w.draft.code := by rw [hmarked.rest]
  have hlines : inner.leave.draft.lines = w.draft.lines := by rw [hmarked.rest]
  refine ⟨rfl, ⟨⟨inner.draft.finish inner.options, ?_⟩,
    ⟨.abx .closure a inner.leave.draft.nested.size, ?_, ?_, ?_, ?_⟩, ?_, ?_⟩, rfl⟩
  · rw [← hnested]
    rfl
  · rw [← hcode]
    rfl
  · exact Instruction.opcode?_abx ..
  · exact Instruction.a_abx ..
  · rw [Instruction.bx_abx, hnested]
  · rw [← hlines]
    rfl
  · rw [← hnested, ← hcode, ← hlines]
    exact hmarked

end

/-- Lowering a function leaves all functions around it intact. -/
theorem FunctionBody.lower_encloses (w : Workspace) (f : FunctionBody) (a : Nat) :
    w.Encloses f a := by
  obtain ⟨params, isVararg, body, line, lastLine⟩ := f
  have hworks := worksOn_lasting.stepwise.writeFunction params isVararg line lastLine
    (worksOn_lasting.stepwise.block body) w.enter
  have hevolves := evolving_stepwise.functionBody ⟨params, isVararg, body, line, lastLine⟩ a w
  rw [FunctionBody.lower] at hevolves
  constructor
  · intro why w' hrun
    rw [FunctionBody.lower] at hrun
    refine ⟨(hevolves.of_rejected hrun).options, ?_⟩
    cases hwrite : writeFunction params isVararg line lastLine body.lower w.enter with
    | ok x inner =>
      rw [loadFunction_of_ok lastLine a hwrite] at hrun
      cases hrun
    | error e inner =>
      rw [loadFunction_of_error lastLine a hwrite] at hrun
      cases hrun
      have hlast := hworks.of_rejected hwrite
      exact .cons hlast.marked hlast.leave.around
  · intro w' hrun
    rw [FunctionBody.lower] at hrun
    refine ⟨(hevolves.of_ok hrun).options, ?_⟩
    cases hwrite : writeFunction params isVararg line lastLine body.lower w.enter with
    | ok x inner =>
      rw [loadFunction_of_ok lastLine a hwrite] at hrun
      have hlast := hworks.of_ok hwrite
      obtain ⟨-, htakes, henclosing⟩ := hlast.takesIn hrun
      exact ⟨htakes, henclosing ▸ hlast.leave.around⟩
    | error e inner =>
      rw [loadFunction_of_error lastLine a hwrite] at hrun
      cases hrun

/-- A function two levels down refers to a local of the outermost one and is then rejected: the
local is marked, and the function in between has come to refer to it. -/
theorem FunctionBody.lower_encloses_of_rejected :
    let g : FunctionBody :=
      ⟨[], false, ⟨[.assign [.name "x"] [.nil] 2, .goto "done" 3], none, 4⟩, 2, 4⟩
    let f : FunctionBody := ⟨["y"], false, ⟨[], some [.function g], 5⟩, 1, 5⟩
    ∃ w w', declareLocal "x" 0 (.main {}) = .ok 0 w ∧
      f.lower 1 w.enter = .error (.rejected (.unsupported .goto 3)) w' ∧
      w'.draft.upvalues.toList.map (·.name) = ["x"] ∧
      w'.enclosing.map (·.locals.toList.map (·.captured)) = [[true]] ∧
      List.Forall₂ Draft.Marked w.enter.stack w'.stack := by
  intro g f
  have hrun : (match declareLocal "x" 0 (.main {}) with
      | .ok r w =>
        match f.lower 1 w.enter with
        | .error (.rejected why) w' => decide (r = 0 ∧ why = .unsupported .goto 3 ∧
            w'.draft.upvalues.toList.map (·.name) = ["x"] ∧
            w'.enclosing.map (·.locals.toList.map (·.captured)) = [[true]])
        | _ => false
      | _ => false) = true := by decide +kernel
  split at hrun
  · next r w hdeclare =>
      split at hrun
      · next why w' hlower =>
          obtain ⟨rfl, rfl, hupvalues, hcaptured⟩ := of_decide_eq_true hrun
          have hencloses := FunctionBody.lower_encloses w.enter f 1
          exact ⟨w, w', hdeclare, hlower, hupvalues, hcaptured, (hencloses.rejected _ w' hlower).2⟩
      · cases hrun
  · cases hrun

end LuaLowering
