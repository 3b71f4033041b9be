import Mathlib.Order.Bounds.Defs
import Mathlib.Order.Monotone.Basic
import LuaLowering.Proofs.Words
import LuaLowering.SizeHint

/-!
# Size hints are rounded up as little as possible

A size is divided in several steps, by sixteen and by two, and each of them rounds
up. What comes out is still the size divided once, by the product of all the
divisors, and rounded up once: to ask whether a quotient that was rounded up is at
most `q` is to ask whether the dividend is at most `q` times the divisor, and such
questions compose. `Scaled` states the division in this form.

That the mantissa then found is the right one needs a second fact, since a mantissa of
eight may have come about by rounding up. `Scaled` also keeps that with one bit less the
quotient would have been sixteen or more, so that no smaller exponent would have done.
-/

namespace LuaLowering

variable {n m e y : Nat}

namespace SizeHint

/-- The largest size that has a byte. Rounded up to a multiple of sixteen, it is still
a word. -/
def maxSize : Nat := 0xfffffffffffffff0

/-- The byte of a size that has one. -/
def encode (n : Nat) : Nat := (encode? n).getD 0

/-! ## Dividing -/

/-- A size `n` divided by `2 ^ e` and rounded up is `m`, which is at least eight. -/
structure Scaled (n m e : Nat) : Prop where
  ceil : ∀ q, n ≤ q * Nat.pow 2 e ↔ m ≤ q
  large : 8 ≤ m
  /-- With one bit less it would have been sixteen or more. -/
  needed : e = 0 ∨ 15 * Nat.pow 2 e < 2 * n

namespace Scaled

variable {n m e bits y : Nat}

theorem start (h : 8 ≤ n) : Scaled n n 0 := by
  refine ⟨fun q => ?_, h, Or.inl rfl⟩
  rw [show Nat.pow 2 0 = 1 from rfl, Nat.mul_one]

theorem le (h : Scaled n m e) : m ≤ n :=
  (h.ceil n).mp (Nat.le_mul_of_pos_right n (Nat.two_pow_pos e))

theorem le_mul (h : Scaled n m e) : n ≤ m * Nat.pow 2 e := (h.ceil m).mpr (Nat.le_refl m)

/-- A smaller quotient is too small. -/
theorem mul_lt (h : Scaled n m e) : (m - 1) * Nat.pow 2 e < n := by
  have hlarge := h.large
  rw [← Nat.not_le, h.ceil]
  omega

/-- One division more. -/
theorem divide (h : Scaled n m e) (pos : 0 < bits) (hm : 8 * Nat.pow 2 bits ≤ m) :
    Scaled n ((m + (Nat.pow 2 bits - 1)) / Nat.pow 2 bits) (e + bits) := by
  have htwo : 2 ≤ Nat.pow 2 bits := Nat.pow_le_pow_right (n := 2) (by decide) pos
  have hsplit : Nat.pow 2 (e + bits) = Nat.pow 2 bits * Nat.pow 2 e :=
    (Nat.pow_add 2 e bits).trans (Nat.mul_comm ..)
  refine ⟨fun q => ?_, ?_, Or.inr ?_⟩
  · rw [hsplit, ← Nat.mul_assoc, h.ceil, Nat.div_le_iff_le_mul_add_pred (by omega),
      Nat.add_le_add_iff_right, Nat.mul_comm]
  · rw [Nat.le_div_iff_mul_le (by omega)]
    omega
  · have hlt := h.mul_lt
    have hquot : (8 * Nat.pow 2 bits - 1) * Nat.pow 2 e ≤ (m - 1) * Nat.pow 2 e :=
      Nat.mul_le_mul_right _ (by omega)
    have hunit : 2 * Nat.pow 2 e ≤ Nat.pow 2 bits * Nat.pow 2 e := Nat.mul_le_mul_right _ htwo
    rw [Nat.sub_mul, Nat.mul_assoc, Nat.one_mul] at hquot
    rw [hsplit]
    omega

end Scaled

/-- A loop ends, with a quotient below its bound, and no sum on the way is too large. -/
theorem shrink_scaled {bits : Nat} (pos : 0 < bits) (hbits : bits ≤ 4) (hn : n ≤ maxSize)
    (h : Scaled n m e) :
    ∃ m' e', shrink bits pos m e = some (m', e') ∧ Scaled n m' e' ∧ m' < 8 * Nat.pow 2 bits := by
  fun_induction shrink bits pos m e with
  | case1 m e hlt => exact ⟨m, e, rfl, h, hlt⟩
  | case2 m e hlarge _ ih => exact ih (h.divide pos (Nat.le_of_not_lt hlarge))
  | case3 m e _ hfits =>
    have hle := h.le
    have hunit : Nat.pow 2 bits ≤ 16 := Nat.pow_le_pow_right (n := 2) (by decide) hbits
    unfold maxSize at hn
    simp only [Word.fits, decide_eq_true_eq] at hfits
    omega

/-- A byte is found, and its mantissa and exponent say how the size was divided. -/
theorem encode?_scaled (h8 : 8 ≤ n) (hn : n ≤ maxSize) :
    ∃ m e, encode? n = some ((e + 1) * 8 + (m - 8)) ∧ Scaled n m e ∧ m < 16 := by
  obtain ⟨m₁, e₁, hfirst, hscaled₁, -⟩ :=
    shrink_scaled (show 0 < 4 by decide) (Nat.le_refl 4) hn (.start h8)
  obtain ⟨m, e, hsecond, hscaled, hlt⟩ :=
    shrink_scaled (show 0 < 1 by decide) (by decide) hn hscaled₁
  refine ⟨m, e, ?_, hscaled, hlt⟩
  rw [encode?, if_neg (Nat.not_lt.mpr h8), hfirst]
  dsimp only [Option.bind_eq_bind, Option.bind_some]
  rw [hsecond, Option.bind_some]

/-! ## Sizes that have a byte -/

theorem decode_of_lt {x : Nat} (h : x < 8) : decode x = x := if_pos h

theorem decode_of_scaled (h8 : 8 ≤ m) (hm : m < 16) :
    decode ((e + 1) * 8 + (m - 8)) = m * Nat.pow 2 e := by
  have hmantissa : ((e + 1) * 8 + (m - 8)) % 8 + 8 = m := by omega
  have hexponent : ((e + 1) * 8 + (m - 8)) / 8 - 1 = e := by omega
  rw [decode, if_neg (by omega), hmantissa, hexponent]

/-- Every byte from eight on has a mantissa between eight and fifteen. -/
theorem exists_mantissa (h : 8 ≤ y) : ∃ m e, y = (e + 1) * 8 + (m - 8) ∧ 8 ≤ m ∧ m < 16 :=
  ⟨y % 8 + 8, y / 8 - 1, by omega, by omega, by omega⟩

theorem decode_lt_succ (x : Nat) : decode x < decode (x + 1) := by
  rcases Nat.lt_trichotomy x 7 with hlt | rfl | hgt
  · rw [decode_of_lt (by omega), decode_of_lt (by omega)]
    omega
  · decide
  · obtain ⟨m, e, rfl, h8, hm⟩ := exists_mantissa hgt
    have hpos : 0 < Nat.pow 2 e := Nat.two_pow_pos e
    rw [decode_of_scaled h8 hm]
    by_cases hlast : m = 15
    · subst hlast
      have hnext : (e + 1) * 8 + (15 - 8) + 1 = (e + 1 + 1) * 8 + (8 - 8) := by omega
      have hdouble : Nat.pow 2 (e + 1) = Nat.pow 2 e * 2 := Nat.pow_succ 2 e
      rw [hnext, decode_of_scaled (Nat.le_refl 8) (by decide), hdouble]
      omega
    · have hnext : (e + 1) * 8 + (m - 8) + 1 = (e + 1) * 8 + (m + 1 - 8) := by omega
      rw [hnext, decode_of_scaled (by omega) (by omega), Nat.succ_mul]
      omega

/-- A larger byte stands for a larger size. -/
theorem decode_strictMono : StrictMono decode := strictMono_nat_of_lt_succ decode_lt_succ

/-- No size that has a byte lies between a size and what its own byte stands for. -/
theorem Scaled.le_decode (h : Scaled n m e) (hm : m < 16) (hy : n ≤ decode y) :
    m * Nat.pow 2 e ≤ decode y := by
  have hle := h.le
  have hlarge := h.large
  by_cases hsmall : y < 8
  · rw [decode_of_lt hsmall] at hy
    omega
  · obtain ⟨k, f, rfl, hk8, hk⟩ := exists_mantissa (Nat.le_of_not_lt hsmall)
    rw [decode_of_scaled hk8 hk] at hy ⊢
    rcases Nat.lt_or_ge f e with hlt | hge
    · -- a smaller exponent is ruled out: its largest mantissa is too small
      have hneeded := h.needed.resolve_left (by omega)
      have hpow : Nat.pow 2 (f + 1) ≤ Nat.pow 2 e := Nat.pow_le_pow_right (n := 2) (by decide) hlt
      have hdouble : Nat.pow 2 (f + 1) = Nat.pow 2 f * 2 := Nat.pow_succ 2 f
      have hkf : k * Nat.pow 2 f ≤ 15 * Nat.pow 2 f := Nat.mul_le_mul_right _ (by omega)
      omega
    · obtain ⟨d, rfl⟩ := Nat.exists_eq_add_of_le hge
      have hsplit : k * Nat.pow 2 (e + d) = k * Nat.pow 2 d * Nat.pow 2 e := by
        rw [show Nat.pow 2 (e + d) = Nat.pow 2 d * Nat.pow 2 e from
          (Nat.pow_add 2 e d).trans (Nat.mul_comm ..), Nat.mul_assoc]
      rw [hsplit] at hy ⊢
      exact Nat.mul_le_mul_right _ ((h.ceil _).mp hy)

theorem Scaled.lt_add_div (h : Scaled n m e) : m * Nat.pow 2 e < n + n / 8 + 1 := by
  have hlt := h.mul_lt
  have hlarge := h.large
  have hpos : 0 < Nat.pow 2 e := Nat.two_pow_pos e
  have hpred : m * Nat.pow 2 e = (m - 1) * Nat.pow 2 e + Nat.pow 2 e := by
    rw [← Nat.succ_mul, Nat.succ_eq_add_one, Nat.sub_add_cancel (by omega)]
  rcases Nat.lt_or_ge 8 m with hgt | hle
  · have hquot : 8 * Nat.pow 2 e ≤ (m - 1) * Nat.pow 2 e := Nat.mul_le_mul_right _ (by omega)
    omega
  · obtain rfl : m = 8 := by omega
    rcases h.needed with rfl | hneeded
    · have hone : Nat.pow 2 0 = 1 := rfl
      omega
    · omega

theorem Scaled.byte_lt (h : Scaled n m e) (hm : m < 16) (hn : n ≤ maxSize) :
    (e + 1) * 8 + (m - 8) < 0x200 := by
  have hexponent : e < 62 := by
    rcases h.needed with rfl | hneeded
    · decide
    · by_contra hge
      have hpow : Nat.pow 2 62 ≤ Nat.pow 2 e :=
        Nat.pow_le_pow_right (n := 2) (by decide) (Nat.le_of_not_lt hge)
      have hvalue : Nat.pow 2 62 = 0x4000000000000000 := rfl
      unfold maxSize at hn
      omega
  omega

/-! ## The byte of a size -/

/-- What the byte of a size stands for. -/
structure Hints (n x : Nat) : Prop where
  /-- The field of an instruction holds it. -/
  lt : x < 0x200
  /-- It stands for the least size that has a byte and is enough. -/
  least : IsLeast {s | n ≤ s ∧ ∃ y, decode y = s} (decode x)
  exact : n ≤ 16 → decode x = n
  near : decode x < n + n / 8 + 1

theorem decode_of_le (h : n ≤ 16) : decode n = n := by
  have hall : ∀ k < 17, decode k = k := by decide
  exact hall n (Nat.lt_succ_of_le h)

theorem encode?_hints (hn : n ≤ maxSize) : ∃ x, encode? n = some x ∧ Hints n x := by
  have hexact : ∀ {x : Nat}, IsLeast {s | n ≤ s ∧ ∃ y, decode y = s} (decode x) → n ≤ 16 →
      decode x = n := fun {x} hleast h16 =>
    Nat.le_antisymm (hleast.2 ⟨Nat.le_refl n, n, decode_of_le h16⟩) hleast.1.1
  rcases Nat.lt_or_ge n 8 with hlt | hge
  · have hdec : decode n = n := decode_of_lt hlt
    refine ⟨n, if_pos hlt, by omega, ⟨⟨Nat.le_of_eq hdec.symm, n, rfl⟩, ?_⟩, fun _ => hdec, ?_⟩
    · rintro s ⟨hs, -⟩
      rwa [hdec]
    · omega
  · obtain ⟨m, e, hencode, hscaled, hm⟩ := encode?_scaled hge hn
    have hdec := decode_of_scaled (e := e) hscaled.large hm
    have hleast : IsLeast {s | n ≤ s ∧ ∃ y, decode y = s} (decode ((e + 1) * 8 + (m - 8))) := by
      refine ⟨⟨hdec ▸ hscaled.le_mul, _, rfl⟩, ?_⟩
      rintro s ⟨hs, y, rfl⟩
      rw [hdec]
      exact hscaled.le_decode hm hs
    exact ⟨_, hencode, hscaled.byte_lt hm hn, hleast, hexact hleast, hdec ▸ hscaled.lt_add_div⟩

theorem encode?_eq_some (hn : n ≤ maxSize) : encode? n = some (encode n) := by
  obtain ⟨x, hx, -⟩ := encode?_hints hn
  rw [encode, hx, Option.getD_some]

/-- A size without a byte is recorded as none at all. -/
theorem encode_lt (n : Nat) : encode n < 0x200 := by
  rcases Nat.lt_or_ge maxSize n with hlt | hn
  · unfold maxSize at hlt
    have hnone : encode? n = none := by
      have hunit : Nat.pow 2 4 = 16 := rfl
      have hfits : ¬ Word.fits (n + (Nat.pow 2 4 - 1)) := by
        simp only [Word.fits, decide_eq_true_eq]
        omega
      rw [encode?, if_neg (by omega), shrink, if_neg (by omega), if_neg hfits]
      rfl
    rw [encode, hnone]
    decide
  · obtain ⟨x, hx, hints⟩ := encode?_hints hn
    rw [encode, hx]
    exact hints.lt

/-- Every size up to the largest has a byte, which stands for the least size that is enough.
No part of the byte is lost in the fields of an instruction, and a larger size has no smaller
byte. -/
theorem size_rounds_up {n : Nat} (hn : n ≤ 0x10000000000000000 - 16) :
    ∃ x, encode? n = some x ∧ Hints n x ∧
      (∀ op a c, (Instruction.abc op a x c).b = x ∧ (Instruction.abc op a c x).c = x) ∧
      ∀ n', n ≤ n' → n' ≤ 0x10000000000000000 - 16 → ∃ x', encode? n' = some x' ∧ x ≤ x' := by
  obtain ⟨x, hx, hints⟩ := encode?_hints hn
  refine ⟨x, hx, hints, fun op a c => ?_, fun n' hle hn' => ?_⟩
  · rw [Instruction.b_abc, Instruction.c_abc, Nat.mod_eq_of_lt hints.lt]
    exact ⟨rfl, rfl⟩
  · obtain ⟨x', hx', hints'⟩ := encode?_hints hn'
    refine ⟨x', hx', decode_strictMono.le_iff_le.mp (hints.least.2 ⟨?_, x', rfl⟩)⟩
    exact Nat.le_trans hle hints'.least.1.1

/-- The largest size is rounded up to the first number that is no word. -/
theorem size_rounds_up_of_largest :
    let n := 0xfffffffffffffff0
    n ≤ 0x10000000000000000 - 16 ∧ encode? n = some 0x1f0 ∧ Hints n 0x1f0 ∧
      decode 0x1f0 = 0x10000000000000000 := by
  intro n
  have hle : n ≤ 0x10000000000000000 - 16 := by decide
  have hbyte : encode? n = some 0x1f0 := by decide +kernel
  obtain ⟨x, hx, hints, -⟩ := size_rounds_up hle
  obtain rfl := Option.some.inj (hbyte.symm.trans hx)
  exact ⟨hle, hbyte, hints, by decide⟩

end SizeHint

end LuaLowering
