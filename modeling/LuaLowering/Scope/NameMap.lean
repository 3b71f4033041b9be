/-!
# Names in scope

A map from names to indexes, as a list of pairs in which a name occurs at most
once. Functions have few names in scope at a time, so a list serves, and a
look-up is a walk that a proof can follow.
-/

namespace LuaLowering

/-- A finite map from names to indexes. -/
abbrev NameMap := List (String × Nat)

namespace NameMap

/-- The index of a name. -/
def find? (x : String) : NameMap → Option Nat
  | [] => none
  | (y, i) :: rest => if y = x then some i else find? x rest

/-- Drops a name. -/
def remove (x : String) : NameMap → NameMap
  | [] => []
  | (y, i) :: rest => if y = x then remove x rest else (y, i) :: remove x rest

/-- Gives a name an index, in place of the one it had. -/
def insert (names : NameMap) (x : String) (i : Nat) : NameMap := (x, i) :: names.remove x

/-- Gives a name back the index it had before, which may be none. -/
def restore (names : NameMap) (x : String) : Option Nat → NameMap
  | some i => names.insert x i
  | none => names.remove x

theorem find?_remove (names : NameMap) (x y : String) :
    (names.remove x).find? y = if x = y then none else names.find? y := by
  induction names with
  | nil => simp [remove, find?]
  | cons p rest ih =>
    by_cases hx : p.1 = x <;> by_cases hy : p.1 = y <;> by_cases hxy : x = y <;>
      simp_all [remove, find?]

theorem find?_insert (names : NameMap) (x y : String) (i : Nat) :
    (names.insert x i).find? y = if x = y then some i else names.find? y := by
  by_cases h : x = y <;> simp [insert, find?, find?_remove, h]

theorem find?_restore (names : NameMap) (x y : String) (old : Option Nat) :
    (names.restore x old).find? y = if x = y then old else names.find? y := by
  cases old <;> simp [restore, find?_insert, find?_remove]

end NameMap

end LuaLowering
