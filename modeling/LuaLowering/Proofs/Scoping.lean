import LuaLowering.Proofs.Lowering

/-!
# Names are resolved by lexical scoping

The shape of a syntax tree follows the scopes of the source. `Declares` adds a
declaration to the open ones and `ScopedIs` and the loops drop what was declared
inside them, so at every point of a function `opened` lists the declarations that
are visible there, the latest first. `FunctionIs` starts a nested function with
none, in front of those of the functions around it.

Every place of the source where a name is read or assigned is governed by what is
open there: `NameIs` where its value is loaded, `OperandIs` where it is an operand,
`ReturnIs` where it is all that is returned, `AddressIs` where it is assigned. Each
of them leaves three possibilities and decides between them in the same way.

* The latest open declaration of the name in the same function is accessed in its
  own register.
* If there is none, the access goes through an upvalue. `Denotes` follows the
  descriptors outwards, from function to function, to the register of the latest
  declaration that was open where the inner function was made.
* If no function around declares the name either (`Site.Unknown`), the access is to
  a field of the globals, and these are found by resolving `_ENV` in the same way
  (`GlobalsAre`).
-/

namespace LuaLowering

/-- In a chunk that compiles every name is lowered to an access of what it stands
for lexically, in the chunk and in all functions nested in it. The chunk's own
outer variable is the table of globals. -/
theorem compile_resolves_lexically {block : Block} {o : Options}
    (ho : o.registerLimit ≤ frameRegisters) {p : Prototype} (h : compile block o = .ok p) :
    ∃ d : Draft, p = d.finish o ∧ d.upvalues = #[.globals] ∧
      WrittenIs [] block.shape { options := o, draft := d, outer := [] } :=
  compile_written ho h

/-- A chunk with one variable of each kind: `x` is a local here and an outer
variable of the function, `y` is a global. -/
theorem compile_resolves_lexically_of_closure :
    let inner : FunctionBody := ⟨[], false, ⟨[.assign [.name "x"] [.name "y"] 2], none, 2⟩, 2, 2⟩
    let block : Block := ⟨[.declare ["x"] [] 1, .declareFunction "f" inner], some [.name "x"], 3⟩
    ∃ p, compile block {} = .ok p ∧ ∃ d : Draft, p = d.finish {} ∧ d.upvalues = #[.globals] ∧
      WrittenIs [] block.shape { options := {}, draft := d, outer := [] } := by
  intro inner block
  have hok : (compile block {}).isOk = true := by decide +kernel
  cases h : compile block {} with
  | ok p => exact ⟨p, rfl, compile_resolves_lexically le_rfl h⟩
  | error e =>
    rw [h] at hok
    cases hok

end LuaLowering
