import LuaLowering.Proofs.Words

/-!
# The layout of instruction words

The four fields of a word, the number of its operation, `A`, `C` and `B`, lie side by
side and leave no bit over, so a word is known when they are. `Bx` is `C` and `B` read
as one number and `Ax` is `A` and `Bx`, and so every way of building a word reaches all
words that have an operation, and whatever replaces one field keeps the others.

The field of the operation has room for more numbers than there are operations. Words
with such a number are read and edited like any other.
-/

namespace LuaLowering

variable {op : Opcode} {i j : Instruction}

theorem Opcode.number_of_ofNumber? {n : Nat} (h : ofNumber? n = some op) : op.number = n := by
  have hall : ∀ k : Fin all.length, (all.get k).number = k := by decide
  obtain ⟨hlt, rfl⟩ := List.getElem?_eq_some_iff.mp h
  exact hall ⟨n, hlt⟩

namespace Instruction

/-- The number in the field of the operation, of which there need be none. -/
def opcodeField (i : Instruction) : Nat := i.word.toNat % 0x40

theorem opcode?_eq (i : Instruction) : i.opcode? = Opcode.ofNumber? i.opcodeField := rfl

/-! ## Fields -/

/-- The fields of a word make up the word. -/
theorem toNat_word (i : Instruction) :
    i.word.toNat = i.opcodeField + i.a * 0x40 + i.c * 0x4000 + i.b * 0x800000 := by
  unfold opcodeField Instruction.a Instruction.b Instruction.c
  omega

theorem eq_of_fields (hop : i.opcodeField = j.opcodeField) (ha : i.a = j.a) (hb : i.b = j.b)
    (hc : i.c = j.c) : i = j := by
  have hword : i.word.toNat = j.word.toNat := by rw [toNat_word, toNat_word, hop, ha, hb, hc]
  cases i
  cases j
  exact congrArg Instruction.mk (UInt32.toNat_inj.mp hword)

theorem a_lt (i : Instruction) : i.a < 0x100 := Nat.mod_lt _ (by decide)

theorem c_lt (i : Instruction) : i.c < 0x200 := Nat.mod_lt _ (by decide)

theorem b_lt (i : Instruction) : i.b < 0x200 := by
  have hlt := i.word.toNat_lt
  rw [Instruction.b]
  omega

theorem bx_eq (i : Instruction) : i.bx = i.c + i.b * 0x200 := by
  unfold Instruction.bx Instruction.b Instruction.c
  omega

theorem axField_eq (i : Instruction) : i.axField = i.a + i.bx * 0x100 := by
  unfold axField Instruction.bx Instruction.a
  omega

theorem bx_lt (i : Instruction) : i.bx < 0x40000 := by
  have hb := i.b_lt
  have hc := i.c_lt
  rw [bx_eq]
  omega

theorem eq_of_bx (hop : i.opcodeField = j.opcodeField) (ha : i.a = j.a) (hbx : i.bx = j.bx) :
    i = j := by
  have hc := i.c_lt
  have hc' := j.c_lt
  rw [bx_eq, bx_eq] at hbx
  exact eq_of_fields hop ha (by omega) (by omega)

theorem eq_of_axField (hop : i.opcodeField = j.opcodeField) (hax : i.axField = j.axField) :
    i = j := by
  have ha := i.a_lt
  have ha' := j.a_lt
  rw [axField_eq, axField_eq] at hax
  exact eq_of_bx hop (by omega) (by omega)

/-! ## Building a word again -/

theorem opcodeField_of_opcode? (h : i.opcode? = some op) :
    i.opcodeField = op.number := (Opcode.number_of_ofNumber? h).symm

/-- Words with one operation have one number for it. -/
theorem opcodeField_congr (h : i.opcode? = some op) (h' : j.opcode? = some op) :
    i.opcodeField = j.opcodeField :=
  (opcodeField_of_opcode? h).trans (opcodeField_of_opcode? h').symm

variable {i : Instruction} {op : Opcode}

theorem eq_abc (h : i.opcode? = some op) : i = abc op i.a i.b i.c := by
  refine eq_of_fields (opcodeField_congr h (opcode?_abc ..)) ?_ ?_ ?_
  · rw [a_abc, Nat.mod_eq_of_lt i.a_lt]
  · rw [b_abc, Nat.mod_eq_of_lt i.b_lt]
  · rw [c_abc, Nat.mod_eq_of_lt i.c_lt]

theorem eq_abx (h : i.opcode? = some op) : i = abx op i.a i.bx := by
  refine eq_of_bx (opcodeField_congr h (opcode?_abx ..)) ?_ ?_
  · rw [a_abx, Nat.mod_eq_of_lt i.a_lt]
  · rw [bx_abx, Nat.mod_eq_of_lt i.bx_lt]

theorem biased_offset (i : Instruction) : biased i.offset = i.bx := by
  have hlt := i.bx_lt
  rw [biased, offset]
  omega

theorem eq_asbx (h : i.opcode? = some op) : i = asbx op i.a i.offset := by
  rw [asbx, biased_offset]
  exact eq_abx h

theorem eq_ax (h : i.opcode? = some op) : i = ax op i.axField := by
  have ha := i.a_lt
  have hbx := i.bx_lt
  refine eq_of_axField (opcodeField_congr h (opcode?_ax ..)) ?_
  rw [axField_ax, Nat.mod_eq_of_lt]
  rw [axField_eq]
  omega

/-! ## Replacing a field -/

theorem biased_lt (n : Int) : biased n < 0x40000 := by
  rw [biased]
  omega

theorem toNat_withOffset (i : Instruction) (n : Int) :
    (i.withOffset n).word.toNat = i.word.toNat % 0x4000 + biased n * 0x4000 := by
  have hlt := biased_lt n
  rw [withOffset, UInt32.toNat_ofNat']
  omega

theorem toNat_withA (i : Instruction) (a : Nat) :
    (i.withA a).word.toNat = i.opcodeField + a % 0x100 * 0x40 + i.bx * 0x4000 := by
  have hlt := i.bx_lt
  rw [withA, UInt32.toNat_ofNat', opcodeField]
  omega

@[simp] theorem opcodeField_withOffset (i : Instruction) (n : Int) :
    (i.withOffset n).opcodeField = i.opcodeField := by
  rw [opcodeField, toNat_withOffset, opcodeField]
  omega

@[simp] theorem a_withOffset (i : Instruction) (n : Int) : (i.withOffset n).a = i.a := by
  rw [Instruction.a, toNat_withOffset, Instruction.a]
  omega

@[simp] theorem bx_withOffset (i : Instruction) (n : Int) : (i.withOffset n).bx = biased n := by
  rw [Instruction.bx, toNat_withOffset]
  omega

theorem offset_withOffset (i : Instruction) {n : Int} (h : n.natAbs ≤ maxOffset) :
    (i.withOffset n).offset = n := by
  have hm : maxOffset = 0x1ffff := rfl
  rw [offset, bx_withOffset, biased]
  omega

@[simp] theorem opcodeField_withA (i : Instruction) (a : Nat) :
    (i.withA a).opcodeField = i.opcodeField := by
  rw [opcodeField, toNat_withA, opcodeField]
  omega

@[simp] theorem a_withA (i : Instruction) (a : Nat) : (i.withA a).a = a % 0x100 := by
  rw [Instruction.a, toNat_withA, opcodeField]
  omega

@[simp] theorem bx_withA (i : Instruction) (a : Nat) : (i.withA a).bx = i.bx := by
  rw [Instruction.bx, toNat_withA, opcodeField]
  omega

theorem b_withA (i : Instruction) (a : Nat) : (i.withA a).b = i.b := by
  have hbx := bx_withA i a
  have hc := i.c_lt
  have hc' := (i.withA a).c_lt
  rw [bx_eq, bx_eq] at hbx
  omega

theorem c_withA (i : Instruction) (a : Nat) : (i.withA a).c = i.c := by
  have hbx := bx_withA i a
  have hc := i.c_lt
  have hc' := (i.withA a).c_lt
  rw [bx_eq, bx_eq] at hbx
  omega

/-! ## Round trips -/

/-- What a word is built from is read back up to the width of each field, a word that has an
operation is built again from what is read, and replacing the offset or `A` changes that
field alone, which then holds what was put there up to its width. -/
theorem word_roundTrip :
    (∀ op a b c, (abc op a b c).opcode? = some op ∧ (abc op a b c).a = a % 0x100 ∧
      (abc op a b c).b = b % 0x200 ∧ (abc op a b c).c = c % 0x200) ∧
    (∀ op a bx, (abx op a bx).opcode? = some op ∧ (abx op a bx).a = a % 0x100 ∧
      (abx op a bx).bx = bx % 0x40000) ∧
    (∀ op x, (ax op x).opcode? = some op ∧ (ax op x).axField = x % 0x4000000) ∧
    (∀ op a (n : Int), (asbx op a n).opcode? = some op ∧ (asbx op a n).a = a % 0x100 ∧
      (n.natAbs ≤ 131071 → (asbx op a n).offset = n)) ∧
    (∀ (i : Instruction) op, i.opcode? = some op → i = abc op i.a i.b i.c ∧ i = abx op i.a i.bx ∧
      i = asbx op i.a i.offset ∧ i = ax op i.axField) ∧
    (∀ (i : Instruction) (n : Int), (i.withOffset n).opcodeField = i.opcodeField ∧
      (i.withOffset n).opcode? = i.opcode? ∧ (i.withOffset n).a = i.a ∧
      ((i.withOffset n).bx : Int) = (n + 131071) % 0x40000 ∧
      (n.natAbs ≤ 131071 → (i.withOffset n).offset = n)) ∧
    (∀ (i : Instruction) a, (i.withA a).opcodeField = i.opcodeField ∧
      (i.withA a).opcode? = i.opcode? ∧
      (i.withA a).b = i.b ∧ (i.withA a).c = i.c ∧ (i.withA a).bx = i.bx ∧
      (i.withA a).offset = i.offset ∧ (i.withA a).a = a % 0x100) := by
  refine ⟨fun op a b c => ?_, fun op a bx => ?_, fun op x => ?_, fun op a n => ?_,
    fun i op h => ?_, fun i n => ?_, fun i a => ?_⟩
  · exact ⟨opcode?_abc .., a_abc .., b_abc .., c_abc ..⟩
  · exact ⟨opcode?_abx .., a_abx .., bx_abx ..⟩
  · exact ⟨opcode?_ax .., axField_ax ..⟩
  · exact ⟨opcode?_asbx .., a_asbx .., offset_asbx op a⟩
  · exact ⟨eq_abc h, eq_abx h, eq_asbx h, eq_ax h⟩
  · refine ⟨opcodeField_withOffset .., ?_, a_withOffset .., ?_, offset_withOffset i⟩
    · rw [opcode?_eq, opcodeField_withOffset, opcode?_eq]
    · have hm : (maxOffset : Int) = 131071 := rfl
      rw [bx_withOffset, biased, hm]
      omega
  · refine ⟨opcodeField_withA .., ?_, b_withA .., c_withA .., bx_withA .., ?_, a_withA ..⟩
    · rw [opcode?_eq, opcodeField_withA, opcode?_eq]
    · rw [offset, bx_withA, offset]

/-- The last word holds no operation, and its fields are edited all the same. -/
theorem word_roundTrip_of_last :
    let i : Instruction := ⟨0xffffffff⟩
    let j : Instruction := asbx .forPrep 7 0
    i.opcode? = none ∧ (i.withA 258).opcodeField = i.opcodeField ∧ (i.withA 258).a = 2 ∧
      (i.withOffset (-3)).offset = -3 ∧ j = asbx .forPrep j.a j.offset := by
  intro i j
  obtain ⟨-, -, -, -, hbuild, hoffset, ha⟩ := word_roundTrip
  have hj : j.opcode? = some .forPrep := by decide
  exact ⟨by decide, (ha i 258).1, (ha i 258).2.2.2.2.2.2, (hoffset i (-3)).2.2.2.2 (by decide),
    (hbuild j _ hj).2.2.1⟩

end Instruction

end LuaLowering
