import LuaLowering.Instruction.Text
import LuaLowering.Proofs.WordLayout

/-!
# Canonical words

The text of an instruction shows the operands that its operation uses and says nothing
of the rest of the word. A word is canonical if that rest is zero; one that holds no
operation is canonical whatever it holds. Each operation shows or leaves zero every bit of
its word, and so a canonical word is known from its operation and the numbers shown.
-/

namespace LuaLowering

attribute [simp] Instruction.shownNumber

/-- The operands that the listing of an operation leaves out. -/
@[simp] def Opcode.spare : Opcode → List Shown
  | .move | .loadNil | .getUpval | .setUpval | .unm | .bnot | .not | .len | .ret | .vararg => [.c]
  | .test | .tForCall => [.b]
  | .loadKx => [.bx]
  | _ => []

/-- What a listing leaves out of a word is zero. -/
def Instruction.Canonical (i : Instruction) : Prop :=
  ∀ op ∈ i.opcode?, ∀ s ∈ op.spare, i.shownNumber s = 0

theorem Instruction.canonical_of_opcode? {i : Instruction} {op : Opcode}
    (hop : i.opcode? = some op) (h : ∀ s ∈ op.spare, i.shownNumber s = 0) : i.Canonical := by
  intro op' hop'
  obtain rfl := Option.some.inj (hop.symm.trans hop')
  exact h

/-! ## The parts of a word -/

/-- A part of a word that an operand is read from. -/
inductive WordPart where
  | a | b | c | bx | ax
deriving DecidableEq

def Shown.part : Shown → WordPart
  | .a => .a
  | .b | .rkB => .b
  | .c | .rkC => .c
  | .bx | .offset | .constBx => .bx
  | .constAx => .ax

/-- Every operation has a use for the whole word or leaves the rest of it zero. -/
theorem Opcode.parts_cover (op : Opcode) :
    let parts := (op.shown ++ op.spare).map Shown.part
    (.a ∈ parts ∧ .b ∈ parts ∧ .c ∈ parts) ∨ (.a ∈ parts ∧ .bx ∈ parts) ∨ .ax ∈ parts := by
  cases op <;> decide

namespace Instruction

variable {i j : Instruction} {op : Opcode}

def part (i : Instruction) : WordPart → Nat
  | .a => i.a
  | .b => i.b
  | .c => i.c
  | .bx => i.bx
  | .ax => i.axField

/-- A field of nine bits is known from the register or constant that it stands for. -/
theorem rkNumber_inj {m n : Nat} (hm : m < 0x200) (hn : n < 0x200) (h : rkNumber m = rkNumber n) :
    m = n := by
  simp only [rkNumber, isConstant, decide_eq_true_eq] at h
  split at h <;> split at h <;> omega

/-- A part of a word is known from the number that is shown of it. -/
theorem part_eq_of_shownNumber {s : Shown} (h : i.shownNumber s = j.shownNumber s) :
    i.part s.part = j.part s.part := by
  cases s with
  | a | b | c | bx => exact Int.ofNat_inj.mp h
  | offset =>
    simp only [shownNumber, offset] at h
    simp only [Shown.part, part]
    omega
  | rkB => exact rkNumber_inj i.b_lt j.b_lt h
  | rkC => exact rkNumber_inj i.c_lt j.c_lt h
  | constBx | constAx =>
    simp only [shownNumber] at h
    simp only [Shown.part, part]
    omega

/-- Canonical words of one operation that show the same numbers are the same. -/
theorem Canonical.eq_of_shownNumber (hi : i.Canonical) (hj : j.Canonical)
    (hop : i.opcode? = some op) (hop' : j.opcode? = some op)
    (h : ∀ s ∈ op.shown, i.shownNumber s = j.shownNumber s) : i = j := by
  have hnumber : ∀ s ∈ op.shown ++ op.spare, i.shownNumber s = j.shownNumber s := by
    intro s hs
    rcases List.mem_append.mp hs with hs | hs
    · exact h s hs
    · rw [hi op hop s hs, hj op hop' s hs]
  have hpart : ∀ p ∈ (op.shown ++ op.spare).map Shown.part, i.part p = j.part p := by
    intro p hp
    obtain ⟨s, hs, rfl⟩ := List.mem_map.mp hp
    exact part_eq_of_shownNumber (hnumber s hs)
  have hfield := opcodeField_congr hop hop'
  rcases op.parts_cover with ⟨ha, hb, hc⟩ | ⟨ha, hbx⟩ | hax
  · exact eq_of_fields hfield (hpart _ ha) (hpart _ hb) (hpart _ hc)
  · exact eq_of_bx hfield (hpart _ ha) (hpart _ hbx)
  · exact eq_of_axField hfield (hpart _ hax)

end Instruction

end LuaLowering
