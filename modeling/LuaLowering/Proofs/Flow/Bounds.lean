import LuaLowering.Proofs.Flow.Integrity

/-!
# Operands name what exists

Every register that an instruction reads, writes or closes is in the frame of its
function, and every constant, upvalue and nested function that it names is there.
The instructions have been collected with what bounds them; what is left is that a
prototype records the bounds of the function as they are.
-/

namespace LuaLowering

/-- What the instructions of a prototype can name. -/
def Prototype.bounds (p : Prototype) : Bounds :=
  ⟨p.maxStackSize.toNat, p.constants.size, p.upvalues.length, p.protos.length⟩

/-- Nothing in a function names what it does not have. -/
structure Prototype.Bounded (p : Prototype) : Prop where
  code : ∀ (pc : Nat) i, p.code[pc]? = some i → i.Within p.bounds
  params : p.numParams.toNat ≤ p.maxStackSize.toNat
  captures : ∀ q ∈ p.protos, ∀ u ∈ q.upvalues, u.inStack = true →
    u.index.toNat < p.maxStackSize.toNat

variable {S : Site} {proper : Prop} {names : List String} {P Q : Point}

theorem Instruction.Within.mono {i : Instruction} {b b' : Bounds} (h : i.Within b)
    (hstack : b.stack ≤ b'.stack) (hconstants : b.constants = b'.constants)
    (hupvalues : b.upvalues = b'.upvalues) (hnested : b.nested = b'.nested) : i.Within b' where
  registers := fun r hr => Nat.lt_of_lt_of_le (h.registers r hr) hstack
  constants := hconstants ▸ h.constants
  upvalues := hupvalues ▸ h.upvalues
  nested := hnested ▸ h.nested

theorem Composed.bounded (h : Composed S proper names P Q) (hproper : proper) :
    (S.draft.finish S.options).Bounded := by
  have hstack := h.fits.recorded.stack
  constructor
  case code =>
    intro pc i hi
    obtain ⟨K, hdo⟩ := h.does hi
    refine (hdo.within hproper).mono ?_ rfl ?_ ?_
    · rw [Prototype.bounds, hstack]
      exact Nat.le_max_left _ _
    · simp [Site.bounds, Prototype.bounds, Draft.finish]
    · simp [Site.bounds, Prototype.bounds, Draft.finish]
  case params =>
    rw [h.fits.recorded.params, hstack]
    exact Nat.le_trans h.paramCount_le (Nat.le_max_left _ _)
  case captures =>
    intro q hq u hu hin
    obtain ⟨inner, rfl, hcaptures⟩ := h.nested_captures hq
    obtain ⟨c, hc, rfl⟩ := List.mem_map.mp hu
    have hlt := hcaptures c (Array.mem_toList_iff.mp hc)
    rw [if_pos hin] at hlt
    have hmod : (UInt8.ofNat c.index).toNat ≤ c.index := Nat.mod_le _ _
    rw [hstack]
    exact Nat.lt_of_le_of_lt hmod (Nat.lt_of_lt_of_le hlt (Nat.le_max_left _ _))

/-- In every function of a chunk that compiles, each operand names something that
exists, provided that no generic `for` of the chunk is without names. -/
theorem compile_bounded {block : Block} {o : Options} (hproper : block.Every Stat.Iterates)
    (hregs : o.registerLimit ≤ frameRegisters) (hconsts : o.constantLimit ≤ operandConstants)
    {p : Prototype} (h : compile block o = .ok p) : ∀ q ∈ p.family, q.Bounded := by
  intro q hq
  obtain ⟨S, names, P, Q, rfl, rfl, hcomp⟩ := compile_composes hregs hconsts h q hq
  exact hcomp.bounded hproper

/-- A chunk with a table, a method call and a function that captures a local. -/
theorem compile_bounded_of_closure :
    let get : FunctionBody := ⟨["k"], false, ⟨[], some [.index (.name "t") (.name "k")], 2⟩, 2, 2⟩
    let block : Block := ⟨[.declare ["t"] [.table
      [.item (.integer 1), .entry (.string "f") (.function get)]] 1,
      .genericFor ["k", "v"] [.call ⟨.name "pairs", none, [.name "t"], 3⟩]
        ⟨[.call ⟨.name "t", some "f", [.name "k"], 4⟩], none, 5⟩ 3], none, 6⟩
    block.Every Stat.Iterates ∧ ∃ p, compile block {} = .ok p ∧ ∀ q ∈ p.family, q.Bounded := by
  intro get block
  have hproper : block.Every Stat.Iterates := by
    simp [block, get, Block.Every, Stat.EveryIn, Stat.Every, Stat.Iterates, Expr.EveryIn,
      Expr.Every, Field.Every, FunctionBody.Every, Call.Every]
  obtain ⟨p, hp⟩ := compile_of_isOk block {} (by decide +kernel)
  exact ⟨hproper, p, hp, compile_bounded hproper le_rfl le_rfl hp⟩

end LuaLowering
