/-!
# Machine words

Positions, counts and sizes are natural numbers here. On the machine they are
words of 64 bits, and nothing that lowering builds comes near that bound. A
caller who drives the builder by hand may pass any word, though, and then it
shows in two ways: a sum can go past the last word, and a word that is read as
a signed number is negative in its upper half.
-/

namespace LuaLowering

namespace Word

/-- Whether a number is a word. -/
def fits (n : Nat) : Bool := n < 0x10000000000000000

/-- A word read as a signed number. -/
def toSigned (n : Nat) : Int :=
  if n < 0x8000000000000000 then n else n - 0x10000000000000000

/-- Whether an offset can be worked out in signed words. The distance it comes
from is one more, and its magnitude has to be a signed word as well. -/
def holdsOffset (offset : Int) : Bool :=
  -0x8000000000000000 < offset && offset < 0x7fffffffffffffff

end Word

end LuaLowering
