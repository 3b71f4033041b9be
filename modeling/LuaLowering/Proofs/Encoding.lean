import LuaLowering.Proofs.Flow.Function

/-!
# Operands and their fields

An instruction is a word, and each operand of it has a field of some bits there. The
shapes of a chunk say which operands its syntax asks for at every place of the code, and
that the word at that place holds them (`Request.Kept`). What is left is to tie them to
the run that compiles the chunk.
-/

namespace LuaLowering

/-- The run that compiles a chunk leaves the code of the chunk, and each operand is
read from its word as it was asked for. So it is in every nested function, at any
depth, and what a function records in bytes is what it was before. Three numbers are
cut to their fields, without an error: that of a batch of items, that of a nested
function and that of a far constant. -/
theorem compile_encoded {block : Block} {o : Options} {p : Prototype}
    (hregs : o.registerLimit ≤ frameRegisters) (hconsts : o.constantLimit ≤ operandConstants)
    (h : compile block o = .ok p) :
    ∃ w, compileChunk block (.main o) = .ok p w ∧ p = w.draft.finish o ∧
      WrittenIs [] block.shape { options := o, draft := w.draft, outer := [] } ∧
      ∀ (S : Site) (r : Request), S.options = o → S.Keeps r → r.Kept := by
  obtain ⟨w, hrun⟩ := compile_eq_ok h
  obtain ⟨hp, -, hwritten⟩ := (compileChunk_spec (fun hf : False => hf.elim) hregs).of_ok hrun
  exact ⟨w, hrun, hp, hwritten, fun S r hS hkept => hkept (hS ▸ hconsts)⟩

/-- A chunk with two closures and a table of more than one batch. -/
theorem compile_encoded_of_table :
    let nothing : FunctionBody := ⟨[], false, ⟨[], none, 1⟩, 1, 1⟩
    let block : Block := ⟨[.declareFunction "f" nothing, .declareFunction "g" nothing,
      .declare ["t"] [.table (List.replicate 60 (.item (.name "f")))] 2], none, 3⟩
    ∃ p w, compile block {} = .ok p ∧ compileChunk block (.main {}) = .ok p w ∧
      p = w.draft.finish {} ∧
      WrittenIs [] block.shape { options := {}, draft := w.draft, outer := [] } ∧
      ∀ (S : Site) (r : Request), S.options = {} → S.Keeps r → r.Kept := by
  intro nothing block
  obtain ⟨p, hp⟩ := compile_of_isOk block {} (by decide +kernel)
  obtain ⟨w, hencoded⟩ := compile_encoded le_rfl le_rfl hp
  exact ⟨p, w, hp, hencoded⟩

end LuaLowering
