import LuaLowering.Proofs.Frame.Region

/-!
# Running a stretch of code

A call frame is run without looking into what most instructions compute. All that is
taken from the machine is its table: an instruction changes the registers that the table
says, and control goes on one of its ways. What a call gives is left open, for a callee
may do anything. It may also change a captured local, and so may whatever else runs other
functions. The registers from some floor on belong to no local, and those are kept.

Whatever is shown of every such run holds of the machine's own.
-/

namespace LuaLowering

/-- A call frame at some moment: where control is and what the registers hold. -/
structure Activation (V : Type) where
  pc : Nat
  registers : Nat → V

variable {V : Type} {S : Site} {floor : Nat} {nil : V}

/-- What an instruction leaves in the registers, as far as it takes no more than counting
to tell. A call and `...` leave as many of the values given as are asked for, and nil for
each that is missing. -/
def Instruction.Deposits (i : Instruction) (nil : V) (given : List V) (registers : Nat → V) :
    Prop :=
  match i.opcode? with
  | some .loadNil => ∀ k ≤ i.b, registers (i.a + k) = nil
  | some .call => ∀ k, k + 1 < i.c → registers (i.a + k) = given.getD k nil
  | some .vararg => ∀ k, k + 1 < i.b → registers (i.a + k) = given.getD k nil
  | _ => True

section

variable {a b c k : Nat} {given : List V} {registers : Nat → V}

theorem Instruction.Deposits.loadNil (ha : a < 0x100)
    (h : (Instruction.abc .loadNil a b c).Deposits nil given registers) (hk : k ≤ b % 0x200) :
    registers (a + k) = nil := by
  rw [Deposits, opcode?_abc] at h
  dsimp only at h
  rw [a_abc, b_abc, Nat.mod_eq_of_lt ha] at h
  exact h k hk

theorem Instruction.Deposits.call (ha : a < 0x100)
    (h : (Instruction.abc .call a b c).Deposits nil given registers) (hk : k + 1 < c % 0x200) :
    registers (a + k) = given.getD k nil := by
  rw [Deposits, opcode?_abc] at h
  dsimp only at h
  rw [a_abc, c_abc, Nat.mod_eq_of_lt ha] at h
  exact h k hk

theorem Instruction.Deposits.vararg (ha : a < 0x100)
    (h : (Instruction.abc .vararg a b c).Deposits nil given registers) (hk : k + 1 < b % 0x200) :
    registers (a + k) = given.getD k nil := by
  rw [Deposits, opcode?_abc] at h
  dsimp only at h
  rw [a_abc, b_abc, Nat.mod_eq_of_lt ha] at h
  exact h k hk

end

namespace Activation

/-- One step. The values `given` are those of a call or of `...`. -/
inductive Step (S : Site) (floor : Nat) (nil : V) (s : Activation V) (given : List V)
    (s' : Activation V) : Prop
  | intro {i : Instruction} {w : Turn × List Span} (hat : S.Has s.pc i) (hway : w ∈ i.ways)
      (hpc : i.target s.pc w.1 = s'.pc)
      (hkeep : ∀ r, floor ≤ r → ¬ i.Changes w.2 r → s'.registers r = s.registers r)
      (hdeposits : i.Deposits nil given s'.registers)

/-- Steps at the positions from `lo` up to `hi`. -/
inductive Run (S : Site) (floor : Nat) (nil : V) (lo hi : Nat) (s : Activation V) :
    Activation V → Prop
  | refl : Run S floor nil lo hi s s
  | step {s₁ s' : Activation V} {given : List V} (hrun : Run S floor nil lo hi s s₁)
      (hge : lo ≤ s₁.pc) (hlt : s₁.pc < hi) (hstep : Step S floor nil s₁ given s') :
      Run S floor nil lo hi s s'

variable {a b lo mid hi : Nat} {s s' : Activation V} {given : List V}

theorem Step.deposits {i : Instruction} (h : Step S floor nil s given s') (hat : S.Has s.pc i) :
    i.Deposits nil given s'.registers := by
  obtain ⟨hat', -, -, -, hdeposits⟩ := h
  obtain rfl := Option.some.inj (hat.symm.trans hat')
  exact hdeposits

/-- A step in a region goes forwards, and not past its end. -/
theorem Step.forward (h : Step S floor nil s given s') (hregion : S.Region a lo hi)
    (hge : lo ≤ s.pc) (hlt : s.pc < hi) : s.pc < s'.pc ∧ s'.pc ≤ hi := by
  obtain ⟨hat, hway, hpc, -, -⟩ := h
  obtain ⟨i, hat', -, -, htargets⟩ := hregion.code s.pc hge hlt
  obtain rfl := Option.some.inj (hat.symm.trans hat')
  have htarget := htargets _ (List.mem_map_of_mem hway)
  rw [hpc] at htarget
  omega

theorem Step.keeps (h : Step S floor nil s given s') (hregion : S.Region a lo hi)
    (hge : lo ≤ s.pc) (hlt : s.pc < hi) {r : Nat} (hfloor : floor ≤ r) (hr : r < a) :
    s'.registers r = s.registers r := by
  obtain ⟨hat, hway, -, hkeep, -⟩ := h
  obtain ⟨i, hat', habove, -⟩ := hregion.code s.pc hge hlt
  obtain rfl := Option.some.inj (hat.symm.trans hat')
  exact hkeep r hfloor fun hchanges => absurd (habove _ hway r hchanges) (Nat.not_le_of_lt hr)

namespace Run

/-- What lies below a region is the same after a run through it. -/
theorem keeps (h : Run S floor nil lo hi s s') (hregion : S.Region a lo hi) {r : Nat}
    (hfloor : floor ≤ r) (hr : r < a) : s'.registers r = s.registers r := by
  induction h with
  | refl => rfl
  | step _ hge hlt hstep ih => exact (hstep.keeps hregion hge hlt hfloor hr).trans ih

/-- Either nothing has happened or control has gone on. -/
theorem eq_or_lt (h : Run S floor nil lo hi s s') (hregion : S.Region a lo hi) :
    s' = s ∨ s.pc < s'.pc := by
  induction h with
  | refl => exact Or.inl rfl
  | step _ hge hlt hstep ih =>
    have hforward := (hstep.forward hregion hge hlt).1
    rcases ih with rfl | hgt
    · exact Or.inr hforward
    · exact Or.inr (Nat.lt_trans hgt hforward)

theorem within (h : Run S floor nil lo hi s s') (hregion : S.Region a lo hi) (hstart : s.pc = lo) :
    lo ≤ s'.pc ∧ s'.pc ≤ hi := by
  cases h with
  | refl => exact ⟨Nat.le_of_eq hstart.symm, hstart ▸ hregion.le⟩
  | step _ hge hlt hstep =>
    have hforward := hstep.forward hregion hge hlt
    omega

/-- A run through two regions comes past the place where they meet. -/
theorem split (h : Run S floor nil lo hi s s') (hfirst : S.Region a lo mid)
    (hrest : S.Region b mid hi) (hstart : s.pc = lo) (hend : s'.pc = hi) :
    ∃ s₁, s₁.pc = mid ∧ Run S floor nil lo mid s s₁ ∧ Run S floor nil mid hi s₁ s' := by
  have hpast : s'.pc < mid ∧ Run S floor nil lo mid s s' ∨
      ∃ s₁, s₁.pc = mid ∧ Run S floor nil lo mid s s₁ ∧ Run S floor nil mid hi s₁ s' := by
    clear hend
    induction h with
    | refl =>
      rcases Nat.eq_or_lt_of_le hfirst.le with heq | hlt
      · exact Or.inr ⟨s, hstart.trans heq, .refl, .refl⟩
      · exact Or.inl ⟨hstart ▸ hlt, .refl⟩
    | @step s₂ s₃ _ _ hge hlt hstep ih =>
      rcases ih with ⟨hbefore, hrun⟩ | ⟨s₁, hmid, hrun, hrun'⟩
      · have hnext : Run S floor nil lo mid s s₃ := .step hrun hge hbefore hstep
        rcases Nat.eq_or_lt_of_le (hstep.forward hfirst hge hbefore).2 with heq | hlt'
        · exact Or.inr ⟨s₃, heq, hnext, .refl⟩
        · exact Or.inl ⟨hlt', hnext⟩
      · have hge' : mid ≤ s₂.pc := by
          rcases hrun'.eq_or_lt hrest with rfl | hgt
          · exact Nat.le_of_eq hmid.symm
          · omega
        exact Or.inr ⟨s₁, hmid, hrun, .step hrun' hge' hlt hstep⟩
  rcases hpast with ⟨hlt, -⟩ | hsplit
  · have hle := hrest.le
    omega
  · exact hsplit

/-- A run through one instruction is one step. -/
theorem single (h : Run S floor nil lo (lo + 1) s s') (hregion : S.Region a lo (lo + 1))
    (hstart : s.pc = lo) (hend : s'.pc = lo + 1) : ∃ given, Step S floor nil s given s' := by
  cases h with
  | refl => omega
  | @step s₁ _ given hrun hge hlt hstep =>
    rcases hrun.eq_or_lt hregion with rfl | hgt
    · exact ⟨given, hstep⟩
    · omega

/-- No step is made where there is no code. -/
theorem eq_of_empty (h : Run S floor nil lo lo s s') : s' = s := by
  cases h with
  | refl => rfl
  | step _ hge hlt _ => omega

end Run

end Activation

end LuaLowering
