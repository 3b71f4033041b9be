import LuaLowering.Proofs.Flow.Integrity

/-!
# What stands where

Only some parts of the code make closures, and only some jumps close upvalues. The
code of an expression closes nothing and makes the functions in it; behind a
condition stands a jump that may close; and a scope is closed by a jump or by
nothing.
-/

namespace LuaLowering

variable {S : Site} {proper : Prop} {opened : List Nat} {K K' : Set Nat} {lo hi : Mark}
  {pc a target : Nat} {i j : Instruction} {op : Opcode}

/-! ## Instructions -/

theorem Instruction.nested?_of_opcode (hop : i.opcode? = some op) (hne : op ≠ .closure) :
    i.nested? = none := (Instruction.nested?_eq hop).trans (Opcode.nested?_of_ne hne _)

theorem Instruction.closes?_of_opcode (hop : i.opcode? = some op) (hne : op ≠ .jmp) :
    i.closes? = none := by
  rw [Instruction.closes?_eq hop, Opcode.closes?, if_neg fun h => hne h.1]

/-- A jump goes on nowhere but at its target. -/
theorem Instruction.closes?_of_ways (h : i.ways ≠ [(.jump, [])]) : i.closes? = none := by
  cases hop : i.opcode? with
  | none => rw [Instruction.closes?, hop, Option.bind_none]
  | some op =>
    rw [Instruction.ways_eq hop] at h
    refine Instruction.closes?_of_opcode hop fun hjmp => ?_
    subst hjmp
    exact h rfl

/-- What stands at a position stands there alone. -/
theorem Site.Has.unique (hi : S.Has pc i) (hj : S.Has pc j) : i = j :=
  Option.some.inj (hi.symm.trans hj)

theorem Site.Jumps.nested?_eq_none (h : S.Jumps .jmp pc a target) (hi : S.Has pc i) :
    i.nested? = none := by
  rw [hi.unique h.2]
  exact Instruction.nested?_of_opcode (Instruction.opcode?_asbx ..) (by simp)

/-- The level of a jump says what it closes. -/
theorem Site.Jumps.closes?_eq (h : S.Jumps .jmp pc a target) (ha : a < 0x100) (hi : S.Has pc i) :
    i.closes? = if a = 0 then none else some (a - 1) := by
  rw [hi.unique h.2, Instruction.closes?_eq (Instruction.opcode?_asbx ..), Opcode.closes?,
    Instruction.a_asbx, Nat.mod_eq_of_lt ha]
  by_cases hzero : a = 0 <;> simp [hzero]

/-! ## Expressions -/

/-- An instruction that closes nothing, and makes a closure only of a function that
is written under some locals. -/
def Site.Ordinary (S : Site) (proper : Prop) (opened : List Nat) (i : Instruction) : Prop :=
  i.closes? = none ∧ (i.nested? = none ∨ ∃ a k, i = .abx .closure a k ∧ S.Makes proper opened k)

theorem Site.Ordinary.of_opcode (hop : i.opcode? = some op) (hjmp : op ≠ .jmp)
    (hclosure : op ≠ .closure) : S.Ordinary proper opened i :=
  ⟨Instruction.closes?_of_opcode hop hjmp, Or.inl (Instruction.nested?_of_opcode hop hclosure)⟩

theorem Site.Jumps.ordinary (h : S.Jumps .jmp pc 0 target) (hi : S.Has pc i) :
    S.Ordinary proper opened i :=
  ⟨h.closes?_eq (by decide) hi, Or.inl (h.nested?_eq_none hi)⟩

theorem Code.ordinary (h : Code S proper opened K lo hi K') (hge : lo.pc ≤ pc) (hlt : pc < hi.pc)
    (hi : S.Has pc i) : S.Ordinary proper opened i := by
  induction h with
  | drop => omega
  | @seq K K₁ K' lo mid hi hfirst hrest ih ih' =>
    by_cases hmid : pc < mid.pc
    · exact ih hge hmid
    · exact ih' (Nat.not_lt.mp hmid) hlt
  | @step K lo _ hdo hways hnone =>
    obtain rfl : pc = lo.pc := by
      simp only [Mark.pc_next] at hlt
      omega
    obtain rfl := hi.unique hdo.code
    exact ⟨Instruction.closes?_of_ways (by simp [hways]), Or.inl hnone⟩
  | @far K lo _ _ hdo hop hextra hop' =>
    simp only [Mark.pc_next] at hlt
    obtain rfl | rfl : pc = lo.pc ∨ pc = lo.pc + 1 := by omega
    · obtain rfl := hi.unique hdo.code
      exact .of_opcode hop (by simp) (by simp)
    · obtain rfl := hi.unique hextra.code
      exact .of_opcode hop' (by simp) (by simp)
  | @closure K lo a hdo hmakes =>
    obtain rfl : pc = lo.pc := by
      simp only at hlt
      omega
    obtain rfl := hi.unique hdo.code
    exact ⟨Instruction.closes?_of_opcode (Instruction.opcode?_abx ..) (by simp),
      Or.inr ⟨a, lo.nested, rfl, hmakes⟩⟩
  | @either K K' lo hi' _ hdo hop hjump _ _ ih =>
    by_cases hfirst : pc = lo.pc
    · subst hfirst
      obtain rfl := hi.unique hdo.code
      exact .of_opcode hop (by simp) (by simp)
    by_cases hsecond : pc = lo.pc + 1
    · subst hsecond
      exact hjump.ordinary hi
    · exact ih (show lo.pc + 1 + 1 ≤ pc by omega) hlt
  | @compare K lo _ _ _ op hdo hop htest hjump hfalse hskip htrue _ hload =>
    simp only at hlt
    obtain rfl | rfl | rfl | rfl : pc = lo.pc ∨ pc = lo.pc + 1 ∨ pc = lo.pc + 2 ∨
      pc = lo.pc + 3 := by
      omega
    · obtain rfl := hi.unique hdo.code
      rcases htest with rfl | rfl | rfl <;> exact .of_opcode hop (by simp) (by simp)
    · exact hjump.ordinary hi
    · obtain rfl := hi.unique hfalse.code
      exact ⟨Instruction.closes?_of_ways (by simp [hskip]),
        Or.inl (Instruction.nested?_of_ways (by simp [hskip]))⟩
    · obtain rfl := hi.unique htrue.code
      exact .of_opcode hload (by simp) (by simp)

/-- Only the jump behind a condition may close. -/
theorem Tested.ordinary (h : Tested S proper opened a target lo hi) (hge : lo.pc ≤ pc)
    (hlt : pc < hi.pc) (hat : S.Has pc i) :
    S.Ordinary proper opened i ∨ pc + 1 = hi.pc ∧ S.Jumps .jmp pc a target := by
  obtain @⟨K, lo, mid, j, hcond, -, hdo, hop, hjump⟩ := h
  simp only [Mark.pc_next] at hlt ⊢
  by_cases hin : pc < mid.pc
  · exact Or.inl (hcond.ordinary hge hin hat)
  by_cases htest : pc = mid.pc
  · subst htest
    obtain rfl := hat.unique hdo.code
    exact Or.inl (.of_opcode hop (by simp) (by simp))
  · obtain rfl : pc = mid.pc + 1 := by omega
    exact Or.inr ⟨rfl, hjump⟩

/-! ## Closures -/

theorem Site.Ordinary.makes (h : S.Ordinary proper opened i) (hnested : i.nested? ≠ none) :
    ∃ a k, i = .abx .closure a k ∧ S.Makes proper opened k := h.2.resolve_left hnested

theorem Tested.makes_at (h : Tested S proper opened a target lo hi) (hge : lo.pc ≤ pc)
    (hlt : pc < hi.pc) (hi : S.Has pc i) (hnested : i.nested? ≠ none) :
    ∃ a k, i = .abx .closure a k ∧ S.Makes proper opened k := by
  rcases h.ordinary hge hlt hi with hordinary | ⟨-, hjump⟩
  · exact hordinary.makes hnested
  · exact absurd (hjump.nested?_eq_none hi) hnested

/-! ## Scopes -/

/-- All that stands between the body of a scope and its end is the jump that closes
it. -/
theorem ClosesTo.jumps_at {level : Nat} (h : ClosesTo S level lo hi) (hge : lo.pc ≤ pc)
    (hlt : pc < hi.pc) : pc = lo.pc ∧ S.Jumps .jmp pc level hi.pc := by
  rcases h.jumps with rfl | ⟨hjump, rfl⟩
  · omega
  · obtain rfl : pc = lo.pc := by
      simp only [Mark.pc_next] at hlt
      omega
    exact ⟨rfl, hjump⟩

end LuaLowering
