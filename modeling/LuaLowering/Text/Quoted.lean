import LuaLowering.Text.Unprintable

/-!
# Quoted text

How a listing writes a string constant: between double quotes, with an escape
for every character that would not show as itself. The escapes that have a
letter of their own are few; any other such character is written by its code
point.
-/

namespace LuaLowering.Text

/-- The escape of a character, or the character itself. -/
def quoteChar (c : Char) : List Char :=
  if c = '\x00' then ['\\', '0']
  else if c = '\t' then ['\\', 't']
  else if c = '\r' then ['\\', 'r']
  else if c = '\n' then ['\\', 'n']
  else if c = '"' then ['\\', '"']
  else if c = '\\' then ['\\', '\\']
  else if isUnprintable c then
    ['\\', 'u', '\x7b'] ++ Nat.toDigits 16 c.toNat ++ ['\x7d']
  else [c]

/-- A string between quotes, its characters escaped where needed. -/
def quote (s : String) : String :=
  String.ofList ('"' :: s.toList.flatMap quoteChar ++ ['"'])

end LuaLowering.Text
