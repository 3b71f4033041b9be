import LuaLowering.Proofs.Progress
import LuaLowering.Proofs.Representation
import Mathlib.Data.Option.Basic

/-!
# Two functions at different places

The same source is lowered twice, behind code that differs in content and length. All
that the two functions share is listed in `Twins.Drafts`: the added code, word for word,
and all tables. What they do not share is where the added code begins. A position is then
not one number but two, at the same distance from the two beginnings.

The relation grows with the code. It knows how many instructions have been added, since
only a position within the code can be jumped to, and how many scopes were opened since,
since only their breaks are ever aimed. Scopes that were open before stay open, and what
is recorded there is not looked at.

A function inside has the same code in both, and is a pair of its own whose code begins
at the same place. `Surroundings` says what such a pair may meet when it asks for an
outer variable.
-/

namespace LuaLowering

variable {b c : OpenBreak} {us vs : Array Local} {u v : Local} {i : Nat}
  {f : List OpenBreak → List OpenBreak} {ss ts : List Scope}

/-- A local without its range. -/
def Local.timeless (v : Local) : Local := { v with startPc := 0, endPc := 0 }

/-- Related options are both there or both missing. -/
theorem optionRel_cases {α β : Type} {R : α → β → Prop} {a : Option α} {b : Option β}
    (h : Option.Rel R a b) :
    (a = none ∧ b = none) ∨ ∃ x y, a = some x ∧ b = some y ∧ R x y := by
  cases h with
  | none => exact Or.inl ⟨rfl, rfl⟩
  | some hxy => exact Or.inr ⟨_, _, rfl, rfl, hxy⟩

/-- Two functions, as they are before the same code is added to both. -/
structure Twins where
  left : Draft
  right : Draft

namespace Twins

section

variable (T : Twins)

/-- Two positions at the same distance from the places where the added code begins. -/
def Shifted (x y : Nat) : Prop := y + T.left.pc = x + T.right.pc

/-- The place behind the first `k` added instructions, in both codes. -/
def Here (k x y : Nat) : Prop := x = T.left.pc + k ∧ y = T.right.pc + k

/-- A place in the first `k` added instructions, or right behind them, in both codes. -/
def At (k x y : Nat) : Prop := ∃ j ≤ k, T.Here j x y

/-- The place of one of the first `k` added instructions, in both codes. -/
def Written (k x y : Nat) : Prop := ∃ j < k, T.Here j x y

/-- The same break, pending in both functions. -/
structure Breaks (b c : OpenBreak) : Prop where
  pc : T.Shifted b.pc c.pc
  depth : c.depth = b.depth
  close : c.close = b.close

/-- The same scope, open in both functions. -/
structure Scopes (s t : Scope) : Prop where
  locals : t.locals = s.locals
  breaks : Option.Rel (List.Forall₂ (T.Breaks)) s.breaks t.breaks

/-- The same range in both functions. -/
structure Ranges (u v : Local) : Prop where
  start : T.Shifted u.startPc v.startPc
  stop : T.Shifted u.endPc v.endPc

/-- A local has the same range in both at the beginning, if it is there. -/
def Aligned (i : Nat) : Prop :=
  ∀ u v, T.left.locals[i]? = some u → T.right.locals[i]? = some v → T.Ranges u v

/-- The same local in both functions. Its range stays the same if it was, and is the same if it is
new. -/
structure Locals (i : Nat) (u v : Local) : Prop where
  timeless : v.timeless = u.timeless
  range : T.Aligned i → T.Ranges u v

/-- The same locals in both functions. -/
def Tables (us vs : Array Local) : Prop := ∀ i : Nat, Option.Rel (T.Locals i) us[i]? vs[i]?

/-- The pending breaks of these scopes are among the first `k` added instructions. -/
def Within (k : Nat) (scopes : List Scope) : Prop :=
  ∀ s ∈ scopes, ∀ b ∈ s.breaks.getD [], ∃ j < k, b.pc = T.left.pc + j

/-- The two functions after `k` instructions have been added, with `m` scopes open that were not
open at the beginning. -/
structure Drafts (k m : Nat) (d e : Draft) : Prop where
  registers : e.registers = d.registers
  visible : e.visible = d.visible
  upvalues : e.upvalues = d.upvalues
  constants : e.constants = d.constants
  nested : e.nested = d.nested
  line : e.line = d.line
  header : T.right.header = T.left.header → e.header = d.header
  code : ∃ added : List Instruction, added.length = k ∧
    d.code.toList = T.left.code.toList ++ added ∧ e.code.toList = T.right.code.toList ++ added
  lines : ∃ added : List Nat,
    d.lines.toList = T.left.lines.toList ++ added ∧ e.lines.toList = T.right.lines.toList ++ added
  locals : T.Tables d.locals e.locals
  scopes : List.Forall₂ T.Scopes d.scopes e.scopes
  inner : T.Within k (d.scopes.take m)

end

variable {T : Twins} {k k' m : Nat} {d e : Draft} {x y : Nat}

/-! ## Positions -/

theorem At.mono (h : T.At k x y) (hk : k ≤ k') : T.At k' x y := by
  obtain ⟨j, hj, hxy⟩ := h
  exact ⟨j, Nat.le_trans hj hk, hxy⟩

theorem Here.at (h : T.Here k x y) (hk : k ≤ k') : T.At k' x y := ⟨k, hk, h⟩

theorem Written.mono (h : T.Written k x y) (hk : k ≤ k') : T.Written k' x y := by
  obtain ⟨j, hj, hxy⟩ := h
  exact ⟨j, Nat.lt_of_lt_of_le hj hk, hxy⟩

theorem Written.at (h : T.Written k x y) : T.At k x y := by
  obtain ⟨j, hj, hxy⟩ := h
  exact ⟨j, Nat.le_of_lt hj, hxy⟩

theorem Here.written (h : T.Here k x y) (hk : k < k') : T.Written k' x y := ⟨k, hk, h⟩

theorem Here.shifted (h : T.Here k x y) : T.Shifted x y := by
  obtain ⟨rfl, rfl⟩ := h
  unfold Shifted
  omega

theorem At.shifted (h : T.At k x y) : T.Shifted x y := by
  obtain ⟨j, -, hxy⟩ := h
  exact hxy.shifted

theorem Shifted.succ (h : T.Shifted x y) : T.Shifted (x + 1) (y + 1) := by
  unfold Shifted at h ⊢
  omega

theorem Here.succ (h : T.Here k x y) : T.Here (k + 1) (x + 1) (y + 1) := by
  obtain ⟨rfl, rfl⟩ := h
  exact ⟨rfl, rfl⟩

theorem Breaks.written (h : T.Breaks b c) (hpc : ∃ j < k, b.pc = T.left.pc + j) :
    T.Written k b.pc c.pc := by
  obtain ⟨j, hj, hb⟩ := hpc
  have hshifted := h.pc
  unfold Shifted at hshifted
  exact ⟨j, hj, hb, by omega⟩

/-! ## Code -/

theorem pc_of_append {d₀ : Draft} {added : List Instruction}
    (h : d.code.toList = d₀.code.toList ++ added) : d.pc = d₀.pc + added.length := by
  have hlength := congrArg List.length h
  rw [List.length_append, Array.length_toList, Array.length_toList] at hlength
  exact hlength

section

variable (h : T.Drafts k m d e)

include h

theorem Drafts.here : T.Here k d.pc e.pc := by
  obtain ⟨added, rfl, hd, he⟩ := h.code
  exact ⟨pc_of_append hd, pc_of_append he⟩

/-- What is written at a place is the same in both. -/
theorem Drafts.codeAt (hxy : T.Written k x y) : e.code[y]? = d.code[x]? := by
  obtain ⟨added, -, hd, he⟩ := h.code
  obtain ⟨j, -, rfl, rfl⟩ := hxy
  -- counted from where the added code begins, it is the same place of the same list
  have hat : ∀ {c c₀ : Draft}, c.code.toList = c₀.code.toList ++ added →
      c.code[c₀.pc + j]? = added[j]? := by
    intro c c₀ hc
    have hlength : c₀.code.toList.length = c₀.pc := Array.length_toList
    rw [← Array.getElem?_toList, hc, ← hlength, List.getElem?_append_right (Nat.le_add_right _ _),
      Nat.add_sub_cancel_left]
  rw [hat hd, hat he]

theorem Drafts.lt_pc (hxy : T.Written k x y) : x < d.pc ∧ y < e.pc := by
  obtain ⟨hd, he⟩ := h.here
  obtain ⟨j, hj, rfl, rfl⟩ := hxy
  omega

theorem Drafts.le_pc (hxy : T.At k x y) : x ≤ d.pc ∧ y ≤ e.pc := by
  obtain ⟨hd, he⟩ := h.here
  obtain ⟨j, hj, rfl, rfl⟩ := hxy
  omega

theorem Drafts.offset {x' y' : Nat} (hxy : T.At k x y) (hxy' : T.At k x' y') :
    e.offset y y' = d.offset x x' := by
  obtain ⟨hd, he⟩ := h.le_pc hxy
  obtain ⟨hd', he'⟩ := h.le_pc hxy'
  have hshifted := hxy.shifted
  have hshifted' := hxy'.shifted
  unfold Shifted at hshifted hshifted'
  rw [Draft.offset_of_le hd hd', Draft.offset_of_le he he']
  omega

theorem Drafts.inner_mono (hk : k ≤ k') : T.Within k' (d.scopes.take m) := by
  intro s hs b hb
  obtain ⟨j, hj, hpc⟩ := h.inner s hs b hb
  exact ⟨j, Nat.lt_of_lt_of_le hj hk, hpc⟩

theorem Drafts.emit (line : Nat) (i : Instruction) :
    T.Drafts (k + 1) m (d.emit line i) (e.emit line i) := by
  obtain ⟨added, hlength, hd, he⟩ := h.code
  obtain ⟨addedLines, hdl, hel⟩ := h.lines
  refine { h with code := ⟨added ++ [i], ?_, ?_, ?_⟩, lines := ⟨addedLines ++ [line], ?_, ?_⟩,
                  inner := h.inner_mono (Nat.le_succ k) }
  · rw [List.length_append, hlength, List.length_singleton]
  · rw [Draft.emit, Array.toList_push, hd, List.append_assoc]
  · rw [Draft.emit, Array.toList_push, he, List.append_assoc]
  · rw [Draft.emit, Array.toList_push, hdl, List.append_assoc]
  · rw [Draft.emit, Array.toList_push, hel, List.append_assoc]

theorem Drafts.setCode (hxy : T.Written k x y) (i : Instruction) :
    T.Drafts k m (d.setCode x i) (e.setCode y i) := by
  obtain ⟨added, hlength, hd, he⟩ := h.code
  obtain ⟨j, -, rfl, rfl⟩ := hxy
  have hset : ∀ {c c₀ : Draft}, c.code.toList = c₀.code.toList ++ added →
      (c.setCode (c₀.pc + j) i).code.toList = c₀.code.toList ++ added.set j i := by
    intro c c₀ hc
    have hlength : c₀.code.toList.length = c₀.pc := Array.length_toList
    rw [Draft.setCode, Array.toList_setIfInBounds, hc, ← hlength,
      List.set_append_right _ _ (Nat.le_add_right _ _), Nat.add_sub_cancel_left]
  exact { h with code := ⟨added.set j i, by rw [List.length_set, hlength], hset hd, hset he⟩ }

theorem Drafts.setRegisters (registers : Registers) :
    T.Drafts k m { d with registers } { e with registers } :=
  { h with
    registers := rfl
    header := fun hT => congrArg (fun header => (registers.limit, header.2)) (h.header hT) }

end

/-! ## Locals -/

theorem Tables.size (h : T.Tables us vs) : vs.size = us.size := by
  have hnone : ∀ i : Nat, us[i]? = none ↔ vs[i]? = none := by
    intro i
    rcases optionRel_cases (h i) with ⟨hu, hv⟩ | ⟨u, v, hu, hv, -⟩
    · rw [hu, hv]
    · simp [hu, hv]
  apply Nat.le_antisymm
  · exact Array.getElem?_eq_none_iff.mp ((hnone _).mp (Array.getElem?_eq_none (Nat.le_refl _)))
  · exact Array.getElem?_eq_none_iff.mp ((hnone _).mpr (Array.getElem?_eq_none (Nat.le_refl _)))

theorem Tables.push (h : T.Tables us vs) (huv : T.Locals us.size u v) :
    T.Tables (us.push u) (vs.push v) := by
  intro i
  rw [Array.getElem?_push, Array.getElem?_push, h.size]
  split
  · next hi => exact .some (hi ▸ huv)
  · exact h i

theorem Tables.set (h : T.Tables us vs) (huv : T.Locals i u v) :
    T.Tables (us.setIfInBounds i u) (vs.setIfInBounds i v) := by
  intro j
  rw [Array.getElem?_setIfInBounds, Array.getElem?_setIfInBounds, h.size]
  split
  · next hij =>
    split
    · exact .some (hij ▸ huv)
    · exact .none
  · exact h j

theorem Tables.modify {f : Local → Local} (h : T.Tables us vs) (i : Nat)
    (hf : ∀ u v, T.Locals i u v → T.Locals i (f u) (f v)) :
    T.Tables (us.modify i f) (vs.modify i f) := by
  intro j
  rw [Array.getElem?_modify, Array.getElem?_modify]
  split
  · next hij =>
    subst hij
    rcases optionRel_cases (h i) with ⟨hu, hv⟩ | ⟨u, v, hu, hv, huv⟩
    · rw [hu, hv]
      exact .none
    · rw [hu, hv]
      exact .some (hf u v huv)
  · exact h j

theorem Locals.name (h : T.Locals i u v) : v.name = u.name :=
  (congrArg Local.name h.timeless :)

theorem Locals.slot (h : T.Locals i u v) : v.slot = u.slot :=
  (congrArg Local.slot h.timeless :)

theorem Locals.captured (h : T.Locals i u v) : v.captured = u.captured :=
  (congrArg Local.captured h.timeless :)

theorem Locals.shadowed (h : T.Locals i u v) : v.shadowed = u.shadowed :=
  (congrArg Local.shadowed h.timeless :)

/-- A local is the same in both if all about it but its range is, and its range is shifted. -/
theorem Locals.of_eq (hname : v.name = u.name) (hslot : v.slot = u.slot)
    (hcaptured : v.captured = u.captured) (hshadowed : v.shadowed = u.shadowed)
    (hrange : T.Aligned i → T.Ranges u v) : T.Locals i u v := by
  refine ⟨?_, hrange⟩
  rw [Local.timeless, Local.timeless, hname, hslot, hcaptured, hshadowed]

section

variable (h : T.Drafts k m d e)

include h

theorem Drafts.declare (name : String) (slot : Nat) (hxy : T.Shifted x y) :
    T.Drafts k m (d.declare name slot x) (e.declare name slot y) := by
  have hsize := h.locals.size
  refine { h with visible := ?_, locals := ?_, scopes := ?_, inner := ?_ }
  · rw [Draft.declare, Draft.declare, h.visible, hsize]
  · exact h.locals.push (.of_eq rfl rfl rfl (by rw [h.visible]) fun _ => ⟨hxy, hxy⟩)
  · have hscopes := h.scopes
    rw [Draft.declare, Draft.declare, hsize]
    dsimp only
    cases hd : d.scopes with
    | nil =>
      rw [hd] at hscopes
      rw [List.forall₂_nil_left_iff.mp hscopes]
      exact .nil
    | cons s rest =>
      rw [hd] at hscopes
      obtain ⟨t, rest', hst, hrest, he⟩ := List.forall₂_cons_left_iff.mp hscopes
      rw [he]
      exact .cons ⟨by rw [hst.locals], hst.breaks⟩ hrest
  · have hinner := h.inner
    unfold Draft.declare
    dsimp only
    cases hd : d.scopes with
    | nil => rwa [hd] at hinner
    | cons s rest =>
      rw [hd] at hinner
      cases m with
      | zero => exact hinner
      | succ m =>
        rw [List.take_succ_cons, Within, List.forall_mem_cons] at hinner ⊢
        exact hinner

theorem Drafts.prolongLocals (first count delta : Nat) :
    T.Drafts k m (d.prolongLocals first count delta) (e.prolongLocals first count delta) := by
  refine { h with locals := ?_ }
  have hlocals := h.locals
  unfold Draft.prolongLocals
  dsimp only
  generalize List.range' first count = is
  generalize d.locals = us at hlocals ⊢
  generalize e.locals = vs at hlocals ⊢
  induction is generalizing us vs with
  | nil => exact hlocals
  | cons i rest ih =>
    refine ih _ _ (hlocals.modify i fun u v huv => ?_)
    refine .of_eq huv.name huv.slot huv.captured huv.shadowed fun hi => ?_
    obtain ⟨hstart, hend⟩ := huv.range hi
    refine ⟨hstart, ?_⟩
    unfold Shifted at hend ⊢
    dsimp only
    omega

theorem Drafts.endLocal (huv : T.Locals i u v) (hxy : T.Shifted x y) :
    T.Drafts k m (d.endLocal i u x) (e.endLocal i v y) := by
  refine { h with visible := ?_, locals := h.locals.set ?_ }
  · rw [Draft.endLocal, Draft.endLocal, h.visible, huv.name, huv.shadowed]
  · refine .of_eq huv.name huv.slot huv.captured huv.shadowed fun hi => ?_
    obtain ⟨hstart, -⟩ := huv.range hi
    refine ⟨hstart, ?_⟩
    unfold Shifted at hstart hxy ⊢
    dsimp only
    omega

theorem Drafts.capture (i : Nat) : T.Drafts k m (d.capture i) (e.capture i) := by
  refine { h with locals := h.locals.modify i fun u v huv => ?_ }
  refine .of_eq huv.name huv.slot rfl huv.shadowed fun hi => ?_
  obtain ⟨hstart, hend⟩ := huv.range hi
  exact ⟨hstart, hend⟩

end

/-- In codes that begin at the same place, new locals are the same altogether. -/
theorem Locals.eq (h : T.Locals i u v) (hT : T.right = T.left) (hi : T.left.locals[i]? = none) :
    v = u := by
  obtain ⟨hstart, hend⟩ := h.range fun _ _ hu _ => by rw [hi] at hu; cases hu
  unfold Shifted at hstart hend
  rw [hT] at hstart hend
  have hname := h.name
  have hslot := h.slot
  have hcaptured := h.captured
  have hshadowed := h.shadowed
  cases u
  cases v
  simp_all

/-! ## Scopes -/

theorem scopes_opened (breakable : Bool) : T.Scopes (.opened breakable) (.opened breakable) := by
  refine ⟨rfl, ?_⟩
  cases breakable with
  | true => exact .some .nil
  | false => exact .none

theorem inLoop_eq (h : List.Forall₂ T.Scopes ss ts) : Scope.inLoop ts = Scope.inLoop ss := by
  induction h with
  | nil => rfl
  | cons hst _ ih =>
    unfold Scope.inLoop at ih ⊢
    rw [List.any_cons, List.any_cons, ih]
    rcases optionRel_cases hst.breaks with ⟨hs, ht⟩ | ⟨bs, cs, hs, ht, -⟩
    · rw [hs, ht]
    · simp [hs, ht]

theorem editBreaks_scopes {g : List OpenBreak → List OpenBreak} (h : List.Forall₂ T.Scopes ss ts)
    (hfg : ∀ bs cs, List.Forall₂ T.Breaks bs cs →
      List.Forall₂ T.Breaks (f bs) (g cs)) :
    List.Forall₂ T.Scopes (Scope.editBreaks f ss) (Scope.editBreaks g ts) := by
  induction h with
  | nil => exact .nil
  | cons hst hrest ih =>
    rw [Scope.editBreaks, Scope.editBreaks]
    rcases optionRel_cases hst.breaks with ⟨hs, ht⟩ | ⟨bs, cs, hs, ht, hbs⟩
    · rw [hs, ht]
      exact .cons hst ih
    · rw [hs, ht]
      exact .cons ⟨hst.locals, .some (hfg bs cs hbs)⟩ hrest

theorem Breaks.raise (h : T.Breaks b c) (depth close : Nat) :
    T.Breaks (Scope.raise depth close b) (Scope.raise depth close c) := by
  unfold Scope.raise
  rw [h.depth]
  split
  · exact ⟨h.pc, rfl, by rw [h.close]⟩
  · exact h

/-- Breaks stay among the added instructions if what is made of them does. -/
theorem Within.editBreaks {scopes : List Scope} (h : T.Within k (scopes.take m))
    (hf : ∀ bs, ∀ b ∈ f bs,
      (∃ j < k, b.pc = T.left.pc + j) ∨ ∃ b' ∈ bs, b.pc = b'.pc) :
    T.Within k ((Scope.editBreaks f scopes).take m) := by
  induction scopes generalizing m with
  | nil => exact h
  | cons s rest ih =>
    cases m with
    | zero => exact fun s hs => absurd hs List.not_mem_nil
    | succ m =>
      rw [List.take_succ_cons, Within, List.forall_mem_cons] at h
      obtain ⟨hfirst, hrest⟩ := h
      rw [Scope.editBreaks]
      cases hs : s.breaks with
      | none =>
        rw [List.take_succ_cons, Within, List.forall_mem_cons]
        exact ⟨hfirst, ih hrest⟩
      | some bs =>
        rw [List.take_succ_cons, Within, List.forall_mem_cons]
        refine ⟨fun b hb => ?_, hrest⟩
        rcases hf bs b hb with hadded | ⟨b', hb', hpc⟩
        · exact hadded
        · rw [hpc]
          exact hfirst b' (by rw [hs]; exact hb')

theorem Drafts.openScope (h : T.Drafts k m d e) (breakable : Bool) :
    T.Drafts k (m + 1) { d with scopes := .opened breakable :: d.scopes }
      { e with scopes := .opened breakable :: e.scopes } := by
  refine { h with scopes := .cons (scopes_opened breakable) h.scopes, inner := ?_ }
  rw [List.take_succ_cons, Within, List.forall_mem_cons]
  refine ⟨fun b hb => ?_, h.inner⟩
  cases breakable <;> exact absurd hb List.not_mem_nil

theorem Drafts.addBreak (h : T.Drafts k m d e) (hxy : T.Written k x y) (depth : Nat) :
    T.Drafts k m { d with scopes := Scope.addBreaks [⟨x, depth, 0⟩] d.scopes }
      { e with scopes := Scope.addBreaks [⟨y, depth, 0⟩] e.scopes } := by
  have hbreak : T.Breaks ⟨x, depth, 0⟩ ⟨y, depth, 0⟩ := ⟨hxy.at.shifted, rfl, rfl⟩
  rw [Scope.addBreaks_eq_editBreaks, Scope.addBreaks_eq_editBreaks]
  refine { h with
    scopes := editBreaks_scopes h.scopes fun _ _ hbs => .cons hbreak hbs
    inner := h.inner.editBreaks fun bs b hb => ?_ }
  rcases List.mem_cons.mp hb with rfl | hb
  · obtain ⟨j, hj, hx, -⟩ := hxy
    exact Or.inl ⟨j, hj, hx⟩
  · exact Or.inr ⟨b, hb, rfl⟩

/-- The scopes around the innermost one, once it is left. -/
theorem Drafts.raiseBreaks (h : T.Drafts k (m + 1) d e) (hscopes : List.Forall₂ T.Scopes ss ts)
    (hinner : T.Within k (ss.take m)) (depth close : Nat) :
    T.Drafts k m { d with scopes := Scope.raiseBreaks depth close ss }
      { e with scopes := Scope.raiseBreaks depth close ts } := by
  rw [Scope.raiseBreaks_eq_editBreaks, Scope.raiseBreaks_eq_editBreaks]
  refine { h with
    scopes := editBreaks_scopes hscopes fun bs cs hbs => ?_
    inner := hinner.editBreaks fun bs b hb => ?_ }
  · exact List.forall₂_map_left_iff.mpr (List.forall₂_map_right_iff.mpr
      (hbs.imp fun _ _ hbc => hbc.raise depth close))
  · obtain ⟨b', hb', rfl⟩ := List.mem_map.mp hb
    exact Or.inr ⟨b', hb', Scope.pc_raise depth close b'⟩

/-! ## At the end -/

/-- As much was added to both, so the codes end as far apart as they did at the beginning. -/
theorem Drafts.scopes_at_end (h : T.Drafts k m d e) :
    List.Forall₂ (Twins.mk d e).Scopes d.scopes e.scopes := by
  obtain ⟨hd, he⟩ := h.here
  have hbreaks : ∀ b c, T.Breaks b c → (Twins.mk d e).Breaks b c := by
    intro b c hbc
    have hpc := hbc.pc
    refine ⟨?_, hbc.depth, hbc.close⟩
    unfold Shifted at hpc ⊢
    dsimp only
    omega
  refine h.scopes.imp fun s t hst => ⟨hst.locals, ?_⟩
  rcases optionRel_cases hst.breaks with ⟨hs, ht⟩ | ⟨bs, cs, hs, ht, hbs⟩
  · rw [hs, ht]
    exact .none
  · rw [hs, ht]
    exact .some (hbs.imp hbreaks)

theorem Tables.map_timeless (h : T.Tables us vs) :
    vs.map Local.timeless = us.map Local.timeless := by
  refine Array.ext_getElem? fun i => ?_
  rw [Array.getElem?_map, Array.getElem?_map]
  rcases optionRel_cases (h i) with ⟨hu, hv⟩ | ⟨u, v, hu, hv, huv⟩
  · rw [hu, hv]
  · rw [hu, hv]
    exact congrArg some huv.timeless

/-- Functions that begin alike, with no local so far, are finished alike. -/
theorem Drafts.finish_eq (h : T.Drafts k m d e) (hT : T.right = T.left)
    (hlocals : T.left.locals = #[]) (o : Options) : e.finish o = d.finish o := by
  have hheader := h.header (by rw [hT])
  have hcode : e.code = d.code := by
    obtain ⟨added, -, hd, he⟩ := h.code
    rw [← Array.toList_inj, hd, he, hT]
  have hlines : e.lines = d.lines := by
    obtain ⟨added, hd, he⟩ := h.lines
    rw [← Array.toList_inj, hd, he, hT]
  have htable : e.locals = d.locals := by
    refine Array.ext_getElem? fun i => ?_
    rcases optionRel_cases (h.locals i) with ⟨hu, hv⟩ | ⟨u, v, hu, hv, huv⟩
    · rw [hu, hv]
    · rw [hu, hv, huv.eq hT (by rw [hlocals]; exact Array.getElem?_empty)]
  simp only [Draft.header, Prod.mk.injEq] at hheader
  obtain ⟨-, hmain, hparams, hvararg, hline, hlast⟩ := hheader
  unfold Draft.finish
  rw [hcode, hlines, htable, hmain, hparams, hvararg, hline, hlast, h.registers, h.constants,
    h.upvalues, h.nested]

/-! ## Outer variables -/

end Twins

/-- Two functions got the same answer when they looked for an outer variable. -/
structure Resolution.Same (Around : List Draft → List Draft → Prop) (d e : Draft)
    (r s : Resolution) : Prop where
  index : s.index = r.index
  draft : ∃ upvalues, r.draft = { d with upvalues } ∧ s.draft = { e with upvalues }
  enclosing : Around r.enclosing s.enclosing

/-- What is around two functions that find the same outer variables. -/
structure Surroundings where
  Around : List Draft → List Draft → Prop
  resolve : ∀ {ds es : List Draft}, Around ds es → ∀ (x : String) {d e : Draft},
    e.upvalues = d.upvalues → e.line = d.line →
      Resolution.Same Around d e (d.resolve x ds) (e.resolve x es)

theorem Resolution.Same.addCapture {Around : List Draft → List Draft → Prop} {ds es : List Draft}
    (h : Around ds es) {d e : Draft} (hupvalues : e.upvalues = d.upvalues) (hline : e.line = d.line)
    (c : Capture) : Resolution.Same Around d e (d.addCapture c ds) (e.addCapture c es) := by
  unfold Draft.addCapture
  rw [hupvalues, hline]
  split
  · exact ⟨rfl, ⟨_, rfl, by rw [← hline]⟩, h⟩
  · exact ⟨rfl, ⟨d.upvalues, rfl, by rw [← hupvalues]⟩, h⟩

namespace Surroundings

/-- The same functions around both. -/
def same : Surroundings where
  Around := Eq
  resolve := by
    intro ds es h x d e hupvalues hline
    subst h
    have hold : ∃ upvalues, d = { d with upvalues } ∧ e = { e with upvalues } :=
      ⟨d.upvalues, rfl, by rw [← hupvalues]⟩
    cases ds with
    | nil =>
      unfold Draft.resolve
      rw [hupvalues]
      split <;> exact ⟨rfl, hold, rfl⟩
    | cons parent rest =>
      unfold Draft.resolve
      rw [hupvalues]
      split
      · exact ⟨rfl, hold, rfl⟩
      · dsimp only
        split
        · split
          · exact .addCapture rfl hupvalues hline _
          · exact ⟨rfl, hold, rfl⟩
        · split
          · exact .addCapture rfl hupvalues hline _
          · exact ⟨rfl, hold, rfl⟩
          · exact ⟨rfl, hold, rfl⟩

/-- Nearest around both are twins that wait until the function inside is finished. -/
def inside (S : Surroundings) (T : Twins) (k m : Nat) : Surroundings where
  Around ds es := ∃ p q ps qs, ds = p :: ps ∧ es = q :: qs ∧ T.Drafts k m p q ∧ S.Around ps qs
  resolve := by
    rintro _ _ ⟨p, q, ps, qs, rfl, rfl, hpq, hrest⟩ x d e hupvalues hline
    have hold : ∃ upvalues, d = { d with upvalues } ∧ e = { e with upvalues } :=
      ⟨d.upvalues, rfl, by rw [← hupvalues]⟩
    have houter := S.resolve hrest x hpq.upvalues hpq.line
    have hwaiting : T.Drafts k m (p.resolve x ps).draft (q.resolve x qs).draft := by
      obtain ⟨upvalues, hp, hq⟩ := houter.draft
      rw [hp, hq]
      exact { hpq with upvalues := rfl }
    unfold Draft.resolve
    rw [hupvalues]
    split
    · exact ⟨rfl, hold, _, _, _, _, rfl, rfl, hpq, hrest⟩
    · dsimp only
      rw [hpq.visible, houter.index]
      split
      · next i _ =>
        rcases optionRel_cases (hpq.locals i) with ⟨hu, hv⟩ | ⟨u, v, hu, hv, huv⟩
        · rw [hu, hv]
          exact ⟨rfl, hold, _, _, _, _, rfl, rfl, hpq, hrest⟩
        · rw [hu, hv]
          dsimp only
          rw [huv.slot]
          exact .addCapture ⟨_, _, _, _, rfl, rfl, hpq.capture i, hrest⟩ hupvalues hline _
      · split
        · exact .addCapture ⟨_, _, _, _, rfl, rfl, hwaiting, houter.enclosing⟩ hupvalues hline _
        · exact ⟨rfl, hold, _, _, _, _, rfl, rfl, hwaiting, houter.enclosing⟩
        · exact ⟨rfl, hold, _, _, _, _, rfl, rfl, hwaiting, houter.enclosing⟩

end Surroundings

end LuaLowering
