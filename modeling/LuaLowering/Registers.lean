import LuaLowering.Error
import LuaLowering.Word

/-!
# Registers of a call frame

Registers are taken from the bottom of the frame upwards and given back in
reverse order, so a count of live registers says which they are. The most ever
live at once is the frame size the function will need.
-/

namespace LuaLowering

/-- The registers of a function under construction. -/
structure Registers where
  /-- The most that may be live at once. -/
  limit : Nat
  /-- How many are live now: those below `used`. -/
  used : Nat := 0
  /-- The most that were ever live at once. -/
  peak : Nat := 0
  peak_le : peak ≤ limit := by exact Nat.zero_le _
deriving DecidableEq, Repr

namespace Registers

/-- Takes `n` registers in a row and gives the first, or nothing when the frame
has no room for them. -/
def takeRun? (r : Registers) (n : Nat) : Option (Nat × Registers) :=
  if h : r.used + n ≤ r.limit then
    some (r.used, { r with
      used := r.used + n
      peak := max r.peak (r.used + n)
      peak_le := Nat.max_le.mpr ⟨r.peak_le, h⟩ })
  else none

/-- Takes `n` registers in a row, where `n` may be any word: the registers that
would then be live have to be counted in a word too. -/
def takeRun (r : Registers) (n : Nat) : Except Misuse (Option (Nat × Registers)) :=
  if Word.fits (r.used + n) then .ok (r.takeRun? n) else .error (.pastWord (r.used + n))

/-- Takes the next register. -/
def take? (r : Registers) : Option (Nat × Registers) := r.takeRun? 1

/-- Gives back the topmost `n` registers. -/
def free (r : Registers) (n : Nat) : Except Misuse Registers :=
  if n ≤ r.used then .ok { r with used := r.used - n }
  else .error (.freeBeyondUsed n r.used)

/-- Gives back everything from `mark` upwards. -/
def freeTo (r : Registers) (mark : Nat) : Except Misuse Registers :=
  if mark ≤ r.used then .ok { r with used := mark }
  else .error (.markAboveUsed mark r.used)

/-- Gives back one register, which has to be the last one taken. -/
def release (r : Registers) (register : Nat) : Except Misuse Registers :=
  if register + 1 = r.used then .ok { r with used := register }
  else .error (.releaseOutOfOrder register r.used)

end Registers

end LuaLowering
