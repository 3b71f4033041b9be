import LuaLowering.Proofs.Evaluation.Expression
import LuaLowering.Proofs.Frame.Region
import LuaLowering.Proofs.Stores.Addresses

/-!
# Code that is added at the end

Lowering adds code behind the code that is there. `Workspace.Appends` says so of any
stretch of it, from whatever state of the builder: the code in front stays, and so does
every local that was declared before, but for the mark that it is captured.

The code of an expression is also straight. It works on the register that it was asked to
load and on registers that it takes itself, and it is left at its end and nowhere else.
`Workspace.Straight` is the form in which this is carried through the builder's steps;
once the registers fit their field it is a `Region` of the finished code.
-/

namespace LuaLowering

open LowerM

variable {w w₁ w₂ w' : Workspace} {a b r : Nat} {i : Instruction} {pc hi : Nat}

/-! ## Instructions -/

namespace Instruction

/-- An instruction that only steers, or that works on `a` or on a register above it that
could be taken. -/
def WorksFrom (i : Instruction) (a limit : Nat) : Prop :=
  ∃ op, i.opcode? = some op ∧
    (op.isSilent = true ∨ ∃ r, a ≤ r ∧ (r = a ∨ r < limit) ∧ i.a = r % 0x100)

variable {limit : Nat} {op : Opcode}

theorem worksFrom_of_silent (hop : i.opcode? = some op) (hsilent : op.isSilent = true)
    (a limit : Nat) : i.WorksFrom a limit := ⟨op, hop, Or.inl hsilent⟩

theorem worksFrom_of_first (hop : i.opcode? = some op) (ha : i.a = r % 0x100) (hle : a ≤ r)
    (hr : r = a ∨ r < limit) : i.WorksFrom a limit := ⟨op, hop, Or.inr ⟨r, hle, hr, ha⟩⟩

theorem WorksFrom.mono (h : i.WorksFrom b limit) (hle : a ≤ b) (hb : b = a ∨ b < limit) :
    i.WorksFrom a limit := by
  obtain ⟨op, hop, hsilent | ⟨r, hr, hlt, ha⟩⟩ := h
  · exact worksFrom_of_silent hop hsilent a limit
  · exact worksFrom_of_first hop ha (by omega) (by omega)

/-- Within the width of the field the first operand is the register itself. -/
theorem WorksFrom.le_first (h : i.WorksFrom a limit) (hlimit : limit ≤ 0x100) (ha : a < 0x100) :
    (∃ op, i.opcode? = some op ∧ op.isSilent = true) ∨ a ≤ i.a := by
  obtain ⟨op, hop, hsilent | ⟨r, hr, hlt, hfirst⟩⟩ := h
  · exact Or.inl ⟨op, hop, hsilent⟩
  · refine Or.inr ?_
    rw [hfirst, Nat.mod_eq_of_lt (by omega)]
    exact hr

theorem WorksFrom.above (h : i.WorksFrom a limit) (hlimit : limit ≤ 0x100) (ha : a < 0x100) :
    i.Above a := by
  rcases h.le_first hlimit ha with ⟨op, hop, hsilent⟩ | hle
  · exact above_of_silent hop hsilent a
  · exact (above_first i).mono hle

/-- From an instruction at a position of a stretch there is a way on, and every such way leads
further down and not past the end. -/
def Proceeds (i : Instruction) (pc hi : Nat) : Prop :=
  i.ways ≠ [] ∧ ∀ t ∈ i.targets pc, (pc : Int) < t ∧ t ≤ hi

theorem Proceeds.mono {hi' : Nat} (h : i.Proceeds pc hi) (hle : hi ≤ hi') : i.Proceeds pc hi' := by
  refine ⟨h.1, fun t ht => ?_⟩
  obtain ⟨hgt, hto⟩ := h.2 t ht
  exact ⟨hgt, by omega⟩

theorem proceeds_next (hways : i.ways = [(.next, [])]) (hlt : pc < hi) : i.Proceeds pc hi := by
  refine ⟨by simp [hways], fun t ht => ?_⟩
  rw [targets, hways, List.map_singleton, List.mem_singleton] at ht
  rw [ht, target]
  omega

/-- An instruction that may skip the one behind it. -/
theorem proceeds_skip (hways : i.ways ≠ [] ∧ ∀ w ∈ i.ways, w.1 ≠ .jump) (hlt : pc + 1 < hi) :
    i.Proceeds pc hi := by
  refine ⟨hways.1, fun t ht => ?_⟩
  obtain ⟨w, hw, rfl⟩ := List.mem_map.mp ht
  have hne := hways.2 w hw
  cases hturn : w.1 with
  | jump => exact absurd hturn hne
  | next | skip =>
    rw [target]
    omega

/-- A jump further down. -/
theorem proceeds_jump {close : Nat} {n : Int} (hn : n.natAbs ≤ maxOffset) (hge : 0 ≤ n)
    (hle : pc + 1 + n ≤ hi) : (asbx .jmp close n).Proceeds pc hi := by
  have hways := ways_eq (opcode?_asbx .jmp close n)
  refine ⟨by simp [hways], fun t ht => ?_⟩
  rw [targets, hways, Opcode.ways, List.map_singleton, List.mem_singleton, target,
    offset_asbx _ _ hn] at ht
  omega

/-- Instructions in a row from a position on that work from `a` and stay in front of `hi`. -/
def StraightRow (a limit hi : Nat) : Nat → List Instruction → Prop
  | _, [] => True
  | pc, i :: rest => (i.WorksFrom a limit ∧ i.Proceeds pc hi) ∧ StraightRow a limit hi (pc + 1) rest

theorem StraightRow.get {k : Nat} {is : List Instruction} (h : StraightRow a limit hi pc is)
    (hk : is[k]? = some i) : i.WorksFrom a limit ∧ i.Proceeds (pc + k) hi := by
  induction is generalizing pc k with
  | nil => cases hk
  | cons j rest ih =>
    cases k with
    | zero =>
      obtain rfl := Option.some.inj hk
      exact h.1
    | succ k =>
      rw [show pc + (k + 1) = pc + 1 + k by omega]
      exact ih h.2 hk

end Instruction

/-! ## Added code -/

namespace Workspace

/-- Code was added behind the code that was there, and the locals are what they were. -/
structure Appends (w w' : Workspace) : Prop where
  limit : w'.draft.registers.limit = w.draft.registers.limit
  locals : ∀ (i : Nat) (v : Local), w.draft.locals[i]? = some v →
    ∃ b, w'.draft.locals[i]? = some { v with captured := b }
  pc : w.draft.pc ≤ w'.draft.pc
  kept : ∀ i < w.draft.pc, w'.draft.code[i]? = w.draft.code[i]?

/-- The added code works on `a` and on registers that were taken above it, and it is left at
its end only. Names mean what they did, and constants are where they were. -/
structure Straight (w : Workspace) (a : Nat) (w' : Workspace) : Prop extends Appends w w' where
  options : w'.options = w.options
  names : ∀ x, w'.slot? x = w.slot? x
  constants : Keeps w.draft.constants w'.draft.constants
  code : ∀ pc, w.draft.pc ≤ pc → pc < w'.draft.pc → ∃ i, w'.draft.code[pc]? = some i ∧
    i.WorksFrom a w.draft.registers.limit ∧ i.Proceeds pc w'.draft.pc

namespace Appends

theorem refl (w : Workspace) : w.Appends w :=
  ⟨rfl, fun _ v hv => ⟨v.captured, hv⟩, le_rfl, fun _ _ => rfl⟩

theorem trans (h₁ : w.Appends w₁) (h₂ : w₁.Appends w₂) : w.Appends w₂ where
  limit := h₂.limit.trans h₁.limit
  locals := fun i v hv => by
    obtain ⟨b, hb⟩ := h₁.locals i v hv
    obtain ⟨b', hb'⟩ := h₂.locals i _ hb
    exact ⟨b', hb'⟩
  pc := Nat.le_trans h₁.pc h₂.pc
  kept := fun i hi => (h₂.kept i (Nat.lt_of_lt_of_le hi h₁.pc)).trans (h₁.kept i hi)

theorem size_le (h : w.Appends w') : w.draft.locals.size ≤ w'.draft.locals.size := by
  by_contra hlt
  obtain ⟨b, hb⟩ := h.locals _ _ (Array.getElem?_eq_getElem (Nat.not_le.mp hlt))
  exact absurd (Array.getElem?_eq_some_iff.mp hb).1 (Nat.lt_irrefl _)

theorem of_grows (h : w.Grows w') : w.Appends w' :=
  ⟨h.limit, fun _ v hv => ⟨v.captured, h.locals ▸ hv⟩, h.pc, h.code⟩

/-- While a function inside is written, nothing is added. -/
theorem of_marked (h : w.draft.Marked w'.draft) : w.Appends w' where
  limit := by rw [h.rest]
  locals := fun i v hv => by
    obtain ⟨b, hb, -, -⟩ := h.locals.entry i v hv
    exact ⟨b, hb⟩
  pc := Nat.le_of_eq h.pc.symm
  kept := fun i _ => by rw [h.rest]

end Appends

namespace Straight

theorem refl (w : Workspace) (a : Nat) : w.Straight a w :=
  ⟨.refl w, rfl, fun _ => rfl, .refl _, fun pc hge hlt => by omega⟩

theorem mono (h : w.Straight b w') (hle : a ≤ b) (hb : b = a ∨ b < w.draft.registers.limit) :
    w.Straight a w' := by
  refine ⟨h.toAppends, h.options, h.names, h.constants, fun pc hge hlt => ?_⟩
  obtain ⟨i, hi, hworks, hon⟩ := h.code pc hge hlt
  exact ⟨i, hi, hworks.mono hle hb, hon⟩

theorem trans (h₁ : w.Straight a w₁) (h₂ : w₁.Straight a w₂) : w.Straight a w₂ := by
  refine ⟨h₁.toAppends.trans h₂.toAppends, h₂.options.trans h₁.options,
    fun x => (h₂.names x).trans (h₁.names x), h₁.constants.trans h₂.constants, fun pc hge hlt => ?_⟩
  by_cases hmid : pc < w₁.draft.pc
  · obtain ⟨i, hi, hworks, hon⟩ := h₁.code pc hge hmid
    exact ⟨i, (h₂.kept pc hmid).trans hi, hworks, hon.mono h₂.pc⟩
  · obtain ⟨i, hi, hworks, hon⟩ := h₂.code pc (Nat.not_lt.mp hmid) hlt
    exact ⟨i, hi, h₁.limit ▸ hworks, hon⟩

/-- Only the functions inside and the record of events changed. -/
theorem of_nested (nested : Array Prototype) (events : Array Event) (a : Nat) :
    w.Straight a { w with draft := { w.draft with nested }, events } := by
  refine ⟨⟨rfl, fun i v hv => ⟨v.captured, hv⟩, le_rfl, fun _ _ => rfl⟩, rfl, fun _ => rfl,
    .refl _, fun pc hge hlt => ?_⟩
  exact absurd hge (Nat.not_le.mpr hlt)

theorem of_marked (hoptions : w'.options = w.options) (h : w.draft.Marked w'.draft) (a : Nat) :
    w.Straight a w' := by
  have hpc := h.pc
  have hvisible : w'.draft.visible = w.draft.visible := by rw [h.rest]
  have hslot : ∀ i : Nat, (w'.draft.locals[i]?).map (·.slot) =
      (w.draft.locals[i]?).map (·.slot) := by
    intro i
    cases hv : w.draft.locals[i]? with
    | none =>
      have hsize := Array.getElem?_eq_none_iff.mp hv
      rw [Array.getElem?_eq_none_iff.mpr (h.locals.size ▸ hsize)]
    | some v =>
      obtain ⟨b, hb, -, -⟩ := h.locals.entry i v hv
      rw [hb]
      rfl
  refine ⟨.of_marked h, hoptions, fun x => ?_, ?_, fun pc hge hlt => by omega⟩
  · unfold slot?
    rw [hvisible]
    cases w.draft.visible.find? x with
    | none => rfl
    | some i => exact hslot i
  · rw [h.rest]
    exact .refl _

/-- An instruction of the added code is replaced by another. -/
theorem setCode (h : w.Straight a w₁) (hoptions : w₂.options = w₁.options)
    (hdraft : w₂.draft = w₁.draft.setCode pc i) (hpc : w.draft.pc ≤ pc)
    (hworks : i.WorksFrom a w.draft.registers.limit) (hon : i.Proceeds pc w₁.draft.pc) :
    w.Straight a w₂ := by
  have hsize : w₂.draft.pc = w₁.draft.pc := by
    rw [hdraft]
    exact Array.size_setIfInBounds
  refine ⟨⟨by rw [hdraft]; exact h.limit, by rw [hdraft]; exact h.locals, hsize ▸ h.pc,
    fun j hj => ?_⟩, hoptions.trans h.options, fun x => ?_, by rw [hdraft]; exact h.constants,
    fun j hge hlt => ?_⟩
  · rw [hdraft, Draft.setCode, Array.getElem?_setIfInBounds_ne (by omega)]
    exact h.kept j hj
  · refine Eq.trans ?_ (h.names x)
    rw [slot?, hdraft]
    rfl
  · rw [hsize] at hlt ⊢
    by_cases hj : pc = j
    · subst hj
      refine ⟨i, ?_, hworks, hon⟩
      rw [hdraft]
      exact Array.getElem?_setIfInBounds_self_of_lt hlt
    · rw [hdraft, Draft.setCode, Array.getElem?_setIfInBounds_ne hj]
      exact h.code j hge hlt

/-- In finished code that holds it, straight code is a region. -/
theorem region {S : Site} (h : w.Straight a w') (hlimit : w.draft.registers.limit ≤ 0x100)
    (ha : a < 0x100)
    (hcode : ∀ pc, w.draft.pc ≤ pc → pc < w'.draft.pc → S.draft.code[pc]? = w'.draft.code[pc]?) :
    S.Region a w.draft.pc w'.draft.pc := by
  refine ⟨h.pc, fun pc hge hlt => ?_⟩
  obtain ⟨i, hi, hworks, hon⟩ := h.code pc hge hlt
  exact ⟨i, (hcode pc hge hlt).trans hi, hworks.above hlimit ha, hon⟩

end Straight

/-! ## Rows of instructions -/

namespace Writes

variable {is : List Instruction}

theorem straight (h : w.Writes is w')
    (hrow : Instruction.StraightRow a w.draft.registers.limit (w.draft.pc + is.length)
      w.draft.pc is) :
    w.Straight a w' := by
  refine ⟨.of_grows h.grows, h.grows.options, h.grows.slot?, h.grows.constants,
    fun pc hge hlt => ?_⟩
  obtain ⟨k, rfl⟩ := Nat.exists_eq_add_of_le hge
  rw [h.pc] at hlt ⊢
  have hi := List.getElem?_eq_getElem (Nat.lt_of_add_lt_add_left hlt)
  exact ⟨is[k], h.code k _ hi, hrow.get hi⟩

theorem straight_nil (h : w.Writes [] w') (a : Nat) : w.Straight a w' := h.straight trivial

/-- One instruction after which control goes on at the next. -/
theorem straight_next (h : w.Writes [i] w') (hworks : i.WorksFrom a w.draft.registers.limit)
    (hways : i.ways = [(.next, [])]) : w.Straight a w' :=
  h.straight ⟨⟨hworks, Instruction.proceeds_next hways (Nat.lt_succ_self _)⟩, trivial⟩

end Writes

end Workspace

end LuaLowering
