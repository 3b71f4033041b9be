import LuaLowering.Proofs.Flow.Function
import LuaLowering.Proofs.Sequence.Statement

/-!
# Functions in sequence

The scan goes through a whole function, from its first instruction to the bare
return at its end. On the way it meets a closure for each nested function, and so
every function of a chunk is known to be the code of one of the source, whatever
the options say about constants.
-/

namespace LuaLowering

variable {S : Site} {o : Options} {params : List String} {body : Block} {p : Prototype}

theorem WrittenIs.peak_le {body : StatShape} (hregs : S.options.registerLimit ≤ frameRegisters)
    (h : WrittenIs params body S) : S.Framed := by
  obtain ⟨P, Q, -, -, -, -, -, -, -, -, hfits⟩ := h
  have hpeak := S.draft.registers.peak_le
  rw [hfits.limit] at hpeak
  exact Nat.le_trans hpeak hregs

theorem WrittenIs.linked (hregs : S.options.registerLimit ≤ frameRegisters)
    (h : WrittenIs params body.shape S) :
    Linked S body.functions ⟨0, 0⟩ ⟨S.draft.code.size, S.draft.nested.size⟩ none := by
  have hmax := h.peak_le hregs
  obtain ⟨P, Q, hparams, hbody, hlast, hsize, -, -, hnested, -, -⟩ := h
  have hroom : S.Room P.opened.length := hparams.room ⟨Nat.zero_le _, Nat.zero_le _⟩
  have hlinked := (Block.links body (List.Subset.refl _) hmax hroom (by simp) hbody).1
  have hstart : P.toMark = ⟨0, 0⟩ := hparams.pc_eq
  have hfinal : Linked S body.functions ⟨0, 0⟩ Q.next none :=
    ret_links (r := 0) (hstart ▸ hlinked) (by decide) (by decide) le_rfl hlast
  rw [hsize, hnested]
  exact hfinal

/-- A prototype is the code of a function with some parameters and some body. -/
def Prototype.CodeOf (p : Prototype) (o : Options) (params : List String) (body : Block) : Prop :=
  ∃ S : Site, S.options = o ∧ p = S.draft.finish o ∧ WrittenIs params body.shape S

theorem Prototype.CodeOf.protos (hregs : o.registerLimit ≤ frameRegisters)
    (h : p.CodeOf o params body) : ∀ q ∈ p.protos,
      ∃ f : FunctionBody, f.functions ⊆ body.functions ∧ q.CodeOf o f.params f.body := by
  intro q hq
  obtain ⟨S, rfl, rfl, hwritten⟩ := h
  obtain ⟨k, hk⟩ := Array.mem_iff_getElem?.mp (Array.mem_toList_iff.mp hq)
  have hlt := (Array.getElem?_eq_some_iff.mp hk).1
  obtain ⟨f, inner, outer, hsub, hk', hf⟩ := (hwritten.linked hregs).made k (Nat.zero_le _) hlt
  obtain rfl := Option.some.inj (hk.symm.trans hk')
  obtain ⟨params', more, body', first, last⟩ := f
  exact ⟨_, hsub, ⟨S.options, inner, outer⟩, rfl, rfl, hf.1⟩

/-- Every function of a chunk that compiles is the code of the chunk itself or of a
function of the source. -/
theorem compile_family_codeOf {block : Block} (hregs : o.registerLimit ≤ frameRegisters)
    (h : compile block o = .ok p) : ∀ q ∈ p.family, q = p ∧ q.CodeOf o [] block ∨
      ∃ f ∈ block.functions, q.CodeOf o f.params f.body := by
  obtain ⟨d, hp, -, hwritten⟩ := compile_written hregs h
  have hstep : ∀ q, (∃ params body, q.CodeOf o params body ∧ body.functions ⊆ block.functions ∧
      (q = p ∧ params = [] ∧ body = block ∨
        ∃ f ∈ block.functions, f.params = params ∧ f.body = body)) →
      ∀ q' ∈ q.protos, ∃ params body, q'.CodeOf o params body ∧
        body.functions ⊆ block.functions ∧ (q' = p ∧ params = [] ∧ body = block ∨
          ∃ f ∈ block.functions, f.params = params ∧ f.body = body) := by
    intro q hq q' hmem
    obtain ⟨params, body, hcode, hsub, -⟩ := hq
    obtain ⟨f, hf, hcode'⟩ := hcode.protos hregs q' hmem
    have hall := List.Subset.trans hf hsub
    obtain ⟨params', more, body', first, last⟩ := f
    rw [FunctionBody.functions, List.cons_subset] at hall
    exact ⟨params', body', hcode', hall.2, Or.inr ⟨_, hall.1, rfl, rfl⟩⟩
  intro q hq
  obtain ⟨params, body, hcode, -, hfrom⟩ := Prototype.family_induction hstep p
    ⟨[], block, ⟨⟨o, d, []⟩, rfl, hp, hwritten⟩, List.Subset.refl _, Or.inl ⟨rfl, rfl, rfl⟩⟩ q hq
  rcases hfrom with ⟨hq, rfl, rfl⟩ | ⟨f, hf, rfl, rfl⟩
  · exact Or.inl ⟨hq, hcode⟩
  · exact Or.inr ⟨f, hf, hcode⟩

end LuaLowering
