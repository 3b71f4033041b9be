import LuaLowering.Proofs.Sequence.Function

/-!
# Open results are taken at once

A call without a count of results, or a `...` without one, leaves the machine with
values up to the top of its stack, and only the next instruction can know where
that is. In compiled code the next instruction takes them, whichever construct
the call stands in; and what takes values up to the top always comes behind such a
producer. Control gets from the one to the other by going on, never by a jump.
-/

namespace LuaLowering

/-- A call or a `...` whose results are not counted. -/
def Instruction.LeavesOpen (i : Instruction) : Prop :=
  i.opcode? = some .call ∧ i.c = 0 ∨ i.opcode? = some .vararg ∧ i.b = 0

/-- Results without a count go from an instruction to the next one, and nowhere
else. -/
structure Prototype.HandsOver (p : Prototype) : Prop where
  taken : ∀ pc i, p.code[pc]? = some i → i.LeavesOpen →
    ∃ j, p.code[pc + 1]? = some j ∧ j.takesOpen = true
  returned : ∀ pc i, p.code[pc]? = some i → i.opcode? = some .tailCall →
    ∃ j, p.code[pc + 1]? = some j ∧ j.opcode? = some .ret ∧ j.b = 0 ∧ j.a = i.a
  left : ∀ pc j, p.code[pc]? = some j → j.takesOpen = true →
    ∃ before i, pc = before + 1 ∧ p.code[before]? = some i ∧
      (i.LeavesOpen ∧ (if j.opcode? = some .ret then j.a ≤ i.a else j.a < i.a) ∨
        i.opcode? = some .tailCall ∧ j.opcode? = some .ret ∧ j.a = i.a)
  passed : ∀ (pc : Nat) (i : Instruction), p.code[pc]? = some i → ∀ t : Nat,
    (t : Int) ∈ i.leaps pc → ∀ j, p.code[t]? = some j → j.takesOpen = false

variable {S : Site} {fs : List FunctionBody} {i j : Instruction} {r : Opening}

/-- What an instruction leaves open begins at its first operand. -/
theorem Instruction.opens?_eq_some (h : i.opens? = some r) :
    r.register = i.a ∧
      (i.LeavesOpen ∧ r.tail = false ∨ i.opcode? = some .tailCall ∧ r.tail = true) := by
  cases hop : i.opcode? with
  | none =>
    rw [Instruction.opens?, hop] at h
    cases h
  | some op =>
    rw [Instruction.opens?_eq hop] at h
    cases op <;> simp only [Opcode.opens?, Option.ite_none_right_eq_some, Option.some.injEq,
      reduceCtorEq] at h
    case call => exact ⟨h.2 ▸ rfl, Or.inl ⟨Or.inl ⟨hop, h.1⟩, h.2 ▸ rfl⟩⟩
    case vararg => exact ⟨h.2 ▸ rfl, Or.inl ⟨Or.inr ⟨hop, h.1⟩, h.2 ▸ rfl⟩⟩
    case tailCall => exact ⟨h ▸ rfl, Or.inr ⟨rfl, h ▸ rfl⟩⟩

theorem Instruction.LeavesOpen.opens? (h : i.LeavesOpen) : i.opens? = some ⟨i.a, false⟩ := by
  rcases h with ⟨hop, hc⟩ | ⟨hop, hb⟩
  · rw [Instruction.opens?_eq hop]
    exact if_pos hc
  · rw [Instruction.opens?_eq hop]
    exact if_pos hb

theorem Instruction.Takes.b_eq (h : j.Takes r) (hop : j.opcode? = some .ret) : j.b = 0 := by
  have htakes := h.takes
  rw [Instruction.takesOpen_eq hop] at htakes
  exact of_decide_eq_true htakes

/-- What stands behind open results takes them. -/
theorem Linked.next_takes {size nested pc : Nat} (h : Linked S fs ⟨0, 0⟩ ⟨size, nested⟩ none)
    (hsize : S.draft.code.size = size) (hi : S.Has pc i) (hopens : i.opens? = some r) :
    ∃ j, S.Has (pc + 1) j ∧ j.Takes r := by
  have hlt : pc < size := hsize ▸ (Array.getElem?_eq_some_iff.mp hi).1
  rcases Nat.lt_or_ge (pc + 1) size with hnext | hlast
  · obtain ⟨j, hj⟩ := h.has (Nat.zero_le _) hnext
    rcases h.preceded (Nat.zero_le _) hnext hj with ⟨hpc, -⟩ | ⟨before, i', hpc, -, hi', hfollows⟩
    · cases hpc
    · obtain rfl : pc = before := by omega
      obtain rfl := Option.some.inj (hi.symm.trans hi')
      rw [hopens] at hfollows
      exact ⟨j, hj, hfollows⟩
  · -- behind the last instruction nothing is open
    rcases h.state with ⟨heq, -⟩ | ⟨before, i', hpc, -, hi', hnone⟩
    · obtain rfl : size = 0 := congrArg Mark.pc heq
      exact absurd hlt (Nat.not_lt_zero _)
    · have hpc' : size = before + 1 := hpc
      obtain rfl : pc = before := by omega
      obtain rfl := Option.some.inj (hi.symm.trans hi')
      rw [hopens] at hnone
      cases hnone

/-- What takes open results comes behind what has left them. -/
theorem Linked.prev_opens {size nested pc : Nat} (h : Linked S fs ⟨0, 0⟩ ⟨size, nested⟩ none)
    (hsize : S.draft.code.size = size) (hj : S.Has pc j) (htakes : j.takesOpen = true) :
    ∃ before i r, pc = before + 1 ∧ S.Has before i ∧ i.opens? = some r ∧ j.Takes r := by
  have hlt : pc < size := hsize ▸ (Array.getElem?_eq_some_iff.mp hj).1
  have hno : ¬ j.Follows none := fun hfollows => Bool.noConfusion (htakes.symm.trans hfollows)
  rcases h.preceded (Nat.zero_le _) hlt hj with ⟨-, hfollows⟩ | ⟨before, i, hpc, -, hi, hfollows⟩
  · exact absurd hfollows hno
  · cases hopens : i.opens? with
    | none =>
      rw [hopens] at hfollows
      exact absurd hfollows hno
    | some r =>
      rw [hopens] at hfollows
      exact ⟨before, i, r, hpc, hi, hopens, hfollows⟩

theorem Linked.handsOver {o : Options} {nested : Nat}
    (h : Linked S fs ⟨0, 0⟩ ⟨S.draft.code.size, nested⟩ none) : (S.draft.finish o).HandsOver where
  taken := by
    intro pc i hi hopen
    obtain ⟨j, hj, htakes⟩ := h.next_takes rfl hi hopen.opens?
    exact ⟨j, hj, htakes.takes⟩
  returned := by
    intro pc i hi hop
    obtain ⟨j, hj, htakes⟩ := h.next_takes rfl hi (Instruction.opens?_eq hop)
    obtain ⟨hret, ha⟩ := htakes.tail rfl
    exact ⟨j, hj, hret, htakes.b_eq hret, ha⟩
  left := by
    intro pc j hj htakes
    obtain ⟨before, i, r, hpc, hi, hopens, htaken⟩ := h.prev_opens rfl hj htakes
    refine ⟨before, i, hpc, hi, ?_⟩
    obtain ⟨hreg, ⟨hopen, -⟩ | ⟨hop, htail⟩⟩ := Instruction.opens?_eq_some hopens
    · exact Or.inl ⟨hopen, hreg ▸ htaken.above⟩
    · exact Or.inr ⟨hop, hreg ▸ htaken.tail htail⟩
  passed := by
    intro pc i hi t ht j hj
    have hlt : pc < S.draft.code.size := (Array.getElem?_eq_some_iff.mp hi).1
    rw [← Bool.not_eq_true]
    intro htakes
    rcases h.leaps (Nat.zero_le _) hlt hi ht with ⟨j', hj', hno⟩ | ⟨before, i', rfl, hi', hnone⟩
    · obtain rfl := Option.some.inj (hj.symm.trans hj')
      exact Bool.noConfusion (htakes.symm.trans hno)
    · obtain ⟨before', i'', r, hpc, hi'', hopens, -⟩ := h.prev_opens rfl hj htakes
      obtain rfl : before = before' := by omega
      obtain rfl := Option.some.inj (hi'.symm.trans hi'')
      rw [hnone] at hopens
      cases hopens

/-- In every function of a chunk that compiles, open results are taken at once, and
only open results are. -/
theorem compile_handsOver {block : Block} {o : Options} (hregs : o.registerLimit ≤ frameRegisters)
    {p : Prototype} (h : compile block o = .ok p) : ∀ q ∈ p.family, q.HandsOver := by
  intro q hq
  have hcode : ∀ {params : List String} {body : Block}, q.CodeOf o params body → q.HandsOver := by
    intro params body hcode
    obtain ⟨S, rfl, rfl, hwritten⟩ := hcode
    exact (hwritten.linked hregs).handsOver
  rcases compile_family_codeOf hregs h q hq with ⟨-, hq⟩ | ⟨f, -, hq⟩
  · exact hcode hq
  · exact hcode hq

/-- A function that packs its arguments into a table, called with the results of
another call in tail position. -/
theorem compile_handsOver_of_varargs :
    let pack : FunctionBody :=
      ⟨[], true, ⟨[], some [.table [.item (.integer 1), .item .vararg], .vararg], 2⟩, 1, 2⟩
    let block : Block := ⟨[.declareFunction "pack" pack],
      some [.call ⟨.name "pack", none, [.call ⟨.name "pack", none, [.vararg], 3⟩], 3⟩], 3⟩
    ∃ p, compile block {} = .ok p ∧ ∀ q ∈ p.family, q.HandsOver := by
  intro pack block
  obtain ⟨p, hp⟩ := compile_of_isOk block {} (by decide +kernel)
  exact ⟨p, hp, compile_handsOver le_rfl hp⟩

end LuaLowering
