import LuaLowering.Proofs.Lowering

/-!
# Compilation keeps to the contract of the builder

Every step of the builder that could go wrong is a `Misuse`: registers given back
out of order or beyond those in use, an instruction changed or a local looked up
where there is none, a position or a count taken below zero or past the range it
is kept in. A chunk never brings one about, however odd its syntax, as long as its
lists can be counted. What is left is a prototype or a verdict on the chunk.
-/

namespace LuaLowering

/-- A chunk whose lists can be counted compiles or is rejected. -/
theorem compile_ok_or_rejected {block : Block} (hlists : block.ListsWithin maxListLength)
    {o : Options} (ho : o.registerLimit ≤ frameRegisters) :
    (∃ p, compile block o = .ok p) ∨ ∃ why, compile block o = .error (.rejected why) := by
  have hspec := compileChunk_spec (fun _ : True => hlists) ho
  unfold compile compileTraced
  cases hrun : compileChunk block (.main o) with
  | ok p w => exact Or.inl ⟨p, rfl⟩
  | error e w =>
    cases e with
    | rejected why => exact Or.inr ⟨why, rfl⟩
    | misused how => exact absurd trivial (hspec.not_misused hrun)

/-- A chunk in which every list that can be empty is: an `if` without arms, an
assignment to nothing, a concatenation of nothing. -/
theorem compile_ok_or_rejected_of_empty_lists :
    let block : Block := ⟨[.ifChain [], .declare [] [] 1, .assign [] [.concat []] 2], some [], 3⟩
    (∃ p, compile block {} = .ok p) ∨ ∃ why, compile block {} = .error (.rejected why) :=
  compile_ok_or_rejected
    (by simp [Block.ListsWithin, Stat.AllWithin, Stat.ListsWithin, Branch.ListsWithin,
      Target.ListsWithin, Expr.AllWithin, Expr.ListsWithin, maxListLength])
    le_rfl

end LuaLowering
