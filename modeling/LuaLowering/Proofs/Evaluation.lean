import LuaLowering.Proofs.Evaluation.Expression

/-!
# Expressions are evaluated

The code of an expression computes the value of the expression, wherever the builder is
when it is written and in whatever function the code ends up. Control leaves it at its
end, with the value in the register that was asked for and all other registers in use,
the upvalues and the heap as they were.

What the operators, concatenation and indexing do is left open, and they may be undefined
for some operands. An expression can have a value although one of its parts has none, if
`and` or `or` does not need it. Its code then never runs into that part, or the machine
would be stuck.
-/

namespace LuaLowering

open Evaluation

variable {V H : Type}

/-- The builder's own limits are enough for the fields of instructions. -/
theorem Reachable.ready {o : Options} {w : Workspace} (h : Reachable o w)
    (hregisters : o.registerLimit ≤ 255) (hconstants : o.constantLimit ≤ 255)
    (hslots : ∀ x r, w.slot? x = some r → r < w.used) : w.Ready := by
  have hsound := h.sound.drafts _ List.mem_cons_self
  have hlimit := h.sound.limit _ List.mem_cons_self
  refine ⟨by omega, ?_, ?_, hsound.count, hslots⟩
  · exact Nat.le_trans hsound.used w.draft.registers.peak_le
  · rw [h.sound.options]
    exact Nat.lt_succ_of_le hconstants

/-- A finished function has its own code, constants and upvalues. -/
theorem Scene.hosts_finish {w : Workspace} {o : Options} {upvalues : Nat → V} {outer : String → V}
    {heap : H} (lo : Nat) (hpool : w.draft.constants.size ≤ 0x40000)
    (hnamed : ∀ u c, w.draft.upvalues[u]? = some c → upvalues u = outer c.name) :
    Scene.Hosts ⟨w.draft.finish o, upvalues, outer, heap⟩ lo w where
  code := fun _ _ _ => rfl
  constants := .refl _
  pool := hpool
  count := Nat.le_of_eq (by simp [Draft.finish])
  named := hnamed

/-- Whenever an expression is written and has a value, its code leaves the value in the
register that was asked for, and nothing else changes but free registers. -/
theorem Expr.lower_evaluates (I : Interpretation V H) {o : Options} {w w' : Workspace} {e : Expr}
    {a : Nat} (hreach : Reachable o w) (hregisters : o.registerLimit ≤ 255)
    (hconstants : o.constantLimit ≤ 255) (hslots : ∀ x r, w.slot? x = some r → r < w.used)
    (ha : a < w.used) (he : e.Simple) (hlower : e.lower a 1 w = .ok () w') {σ : Scene V H}
    (hhosts : σ.Hosts w.draft.pc w') {regs : Nat → V} {v : V}
    (hv : e.value? I (w.environment regs σ.outer σ.heap) = some v) :
    ∃ regs', Reaches I σ.program ⟨w.draft.pc, regs, σ.upvalues, σ.heap⟩
        ⟨w'.draft.pc, regs', σ.upvalues, σ.heap⟩ ∧
      regs' a = v ∧ ∀ r < w.used, r ≠ a → regs' r = regs r := by
  have hready := hreach.ready hregisters hconstants hslots
  obtain ⟨-, -, hevaluates⟩ := (he.computes (I := I) hready ha).of_ok hlower
  exact hevaluates hhosts hv

/-- Constants as values. The only table is named by a string and has one field. -/
def Interpretation.sample : Interpretation Constant Unit where
  constant := id
  truthy c := c ≠ .nil ∧ c ≠ .boolean false
  unary
    | .minus, .integer n => some (.integer (-n))
    | _, _ => none
  arithmetic _ _ _ := none
  equal l r := some (l = r)
  less
    | .integer m, .integer n => some (m < n)
    | _, _ => none
  lessEqual _ _ := none
  concat _ := none
  index _ table key :=
    if table = .string "globals" ∧ key = .string "g" then some (.integer 7) else none
  store _ _ _ _ := none

/-- `x > 1 and g or t.u`, where `x` is 5 and `t` is not defined. -/
theorem Expr.lower_evaluates_of_undefined :
    let e : Expr := .binary .or (.binary .and (.binary .gt (.name "x") (.integer 1)) (.name "g"))
      (.index (.name "t") (.string "u"))
    let regs : Nat → Constant := fun _ => .integer 5
    let upvalues : Nat → Constant := fun _ => .string "globals"
    ∃ w₀ w w', declareLocal "x" 0 (.main {}) = .ok 0 w₀ ∧ takeRegister w₀ = .ok 1 w ∧
      e.lower 1 1 w = .ok () w' ∧ w.draft.pc = 0 ∧ w'.draft.pc = 13 ∧
      ∃ regs', Reaches .sample (w'.draft.finish {}) ⟨0, regs, upvalues, ()⟩
          ⟨13, regs', upvalues, ()⟩ ∧ regs' 1 = .integer 7 ∧ regs' 0 = .integer 5 := by
  intro e regs upvalues
  have hrun : (match declareLocal "x" 0 (.main {}) with
      | .ok r₀ w₀ =>
        match takeRegister w₀ with
        | .ok r w =>
          match e.lower 1 1 w with
          | .ok _ w' => decide (r₀ = 0 ∧ r = 1 ∧ w.draft.pc = 0 ∧ w'.draft.pc = 13 ∧ w.used = 2 ∧
              (∀ v ∈ w.draft.locals, v.slot < 2) ∧ w'.draft.constants.size ≤ 0x40000 ∧
              e.value? .sample (w.environment regs (fun _ => .string "globals") ()) =
                some (.integer 7))
          | _ => false
        | _ => false
      | _ => false) = true := by decide +kernel
  split at hrun
  · next r₀ w₀ hdeclare =>
    split at hrun
    · next r w htake =>
      split at hrun
      · next w' hlower =>
        obtain ⟨rfl, rfl, hpc, hpc', hused, hlocals, hpool, hv⟩ := of_decide_eq_true hrun
        have hreach : Reachable {} w := .history .main ((History.start _).finished
          (.declareLocal "x" 0) hdeclare |>.finished .takeRegister htake)
        have hslots : ∀ x r, w.slot? x = some r → r < w.used := by
          intro x r hr
          obtain ⟨i, -, hi⟩ := Option.bind_eq_some_iff.mp hr
          obtain ⟨v, hv, rfl⟩ := Option.map_eq_some_iff.mp hi
          exact hused.symm ▸ hlocals v (Array.mem_of_getElem? hv)
        have hsimple : e.Simple := by
          refine .binary _ (.binary _ (.binary _ ?_ ?_) ?_) (.index ?_ ?_) <;> constructor
        have hhosts : Scene.Hosts ⟨w'.draft.finish {}, upvalues, fun _ => .string "globals", ()⟩
            w.draft.pc w' := Scene.hosts_finish _ hpool fun _ _ _ => rfl
        obtain ⟨regs', hruns, hval, hkeep⟩ := Expr.lower_evaluates .sample hreach (by decide)
          (by decide) hslots (by omega) hsimple hlower hhosts hv
        rw [hpc, hpc'] at hruns
        exact ⟨w₀, w, w', hdeclare, htake, hlower, hpc, hpc', regs', hruns, hval,
          hkeep 0 (by omega) (by decide)⟩
      · cases hrun
    · cases hrun
  · cases hrun

end LuaLowering
