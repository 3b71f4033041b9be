import LuaLowering.Instruction

/-!
# Reading back what an instruction word was built from

A word keeps its operation whole and each operand up to the width of its field.
Everything that is proved about generated code reads words through the equations
below, so the layout of a word is looked into here and nowhere else.
-/

namespace LuaLowering

namespace Instruction

section

variable (op : Opcode)

include op

theorem toNat_abc (a b c : Nat) :
    (abc op a b c).word.toNat =
      op.number + a % 0x100 * 0x40 + c % 0x200 * 0x4000 + b % 0x200 * 0x800000 := by
  have hop := op.number_lt
  rw [abc, UInt32.toNat_ofNat']
  omega

theorem toNat_abx (a bx : Nat) :
    (abx op a bx).word.toNat = op.number + a % 0x100 * 0x40 + bx % 0x40000 * 0x4000 := by
  have hop := op.number_lt
  rw [abx, UInt32.toNat_ofNat']
  omega

@[simp] theorem opcode?_abc (a b c : Nat) : (abc op a b c).opcode? = some op := by
  have hop := op.number_lt
  rw [opcode?, toNat_abc, ← op.ofNumber?_number]
  congr 1
  omega

@[simp] theorem a_abc (a b c : Nat) : (abc op a b c).a = a % 0x100 := by
  have hop := op.number_lt
  rw [Instruction.a, toNat_abc]
  omega

@[simp] theorem b_abc (a b c : Nat) : (abc op a b c).b = b % 0x200 := by
  have hop := op.number_lt
  rw [Instruction.b, toNat_abc]
  omega

@[simp] theorem c_abc (a b c : Nat) : (abc op a b c).c = c % 0x200 := by
  have hop := op.number_lt
  rw [Instruction.c, toNat_abc]
  omega

@[simp] theorem opcode?_abx (a bx : Nat) : (abx op a bx).opcode? = some op := by
  have hop := op.number_lt
  rw [opcode?, toNat_abx, ← op.ofNumber?_number]
  congr 1
  omega

@[simp] theorem a_abx (a bx : Nat) : (abx op a bx).a = a % 0x100 := by
  have hop := op.number_lt
  rw [Instruction.a, toNat_abx]
  omega

@[simp] theorem bx_abx (a bx : Nat) : (abx op a bx).bx = bx % 0x40000 := by
  have hop := op.number_lt
  rw [Instruction.bx, toNat_abx]
  omega

@[simp] theorem opcode?_asbx (a : Nat) (n : Int) :
    (asbx op a n).opcode? = some op := opcode?_abx op a _

@[simp] theorem a_asbx (a : Nat) (n : Int) : (asbx op a n).a = a % 0x100 :=
  a_abx op a _

@[simp] theorem opcode?_ax (x : Nat) : (ax op x).opcode? = some op := by
  have hop := op.number_lt
  rw [opcode?, ax, UInt32.toNat_ofNat', ← op.ofNumber?_number]
  congr 1
  omega

@[simp] theorem axField_ax (x : Nat) : (ax op x).axField = x % 0x4000000 := by
  have hop := op.number_lt
  rw [axField, ax, UInt32.toNat_ofNat']
  omega

end

/-- Within the width of a field, a constant is its index behind the registers. -/
theorem constantField_of_lt {k : Nat} (h : k < 0x100) : constantField k = k + 0x100 := by
  have hnot : isConstant k = false := by
    rw [isConstant, decide_eq_false_iff_not]
    omega
  rw [constantField, hnot, Nat.mod_eq_of_lt (by omega)]
  rfl

/-- An offset that a jump can hold is read back as it is. -/
theorem offset_asbx (op : Opcode) (a : Nat) {n : Int} (h : n.natAbs ≤ maxOffset) :
    (asbx op a n).offset = n := by
  have hm : maxOffset = 0x1ffff := rfl
  rw [offset, asbx, bx_abx, biased]
  omega

/-- Giving a jump another offset keeps its operation and `A`. -/
theorem withOffset_asbx (op : Opcode) (a : Nat) (m n : Int) :
    (asbx op a m).withOffset n = asbx op a n := by
  have hop := op.number_lt
  have hn : biased n < 0x40000 := by
    rw [biased]
    omega
  have hword : (asbx op a m).word.toNat % 0x4000 = op.number + a % 0x100 * 0x40 := by
    rw [asbx, toNat_abx]
    omega
  rw [withOffset, hword, asbx, abx, Nat.mod_eq_of_lt hn]

end Instruction

end LuaLowering
