import LuaLowering.Proofs.Layout.Expression

/-!
# Code in scopes

What a statement adds to the code may jump back as well as forward, but not out of the
stretch that was written with it: `Workspace.Contained`. The one exception is a break, whose
jump waits with the scope of its loop. `Workspace.Carries` adds to containment what has
become of the open scopes: the locals that were declared are with the innermost of them,
and the jumps of the breaks, at the places listed, are with the innermost loop.

How deep a pending break stands and what it has to close by now is another matter, and
nothing is asked of it here. Scopes are therefore compared without these two.
-/

namespace LuaLowering

open LowerM

variable {w w₁ w₂ w₃ w' : Workspace} {lo : Nat} {sites sites' : List Nat} {i : Instruction}
  {a lo' startPc : Nat} {names : List String} {scope : Scope} {outer : List Scope}

/-! ## Containment -/

namespace Instruction

/-- Wherever control goes on after an instruction is between two positions. -/
def StaysIn (i : Instruction) (pc lo hi : Nat) : Prop :=
  ∀ t ∈ i.targets pc, (lo : Int) ≤ t ∧ t ≤ hi

variable {op : Opcode} {pc hi hi' : Nat}

theorem StaysIn.mono (h : i.StaysIn pc lo hi) (hle : hi ≤ hi') : i.StaysIn pc lo hi' := by
  intro t ht
  obtain ⟨hge, hto⟩ := h t ht
  exact ⟨hge, by omega⟩

theorem Proceeds.staysIn (h : i.Proceeds pc hi) (hlo : lo ≤ pc) : i.StaysIn pc lo hi := by
  intro t ht
  obtain ⟨hgt, hto⟩ := h.2 t ht
  exact ⟨by omega, hto⟩

theorem staysIn_of_no_ways (h : i.ways = []) : i.StaysIn pc lo hi := by
  intro t ht
  rw [targets, h] at ht
  cases ht

/-- An instruction that goes on at the next one or where its offset leads. -/
theorem staysIn_asbx {n : Int} (hop : ∀ a c, ∀ way ∈ op.ways a c, way.1 ≠ .skip)
    (hn : n.natAbs ≤ maxOffset) (hlo : lo ≤ pc + 1) (hhi : pc + 1 ≤ hi)
    (hfrom : (lo : Int) ≤ pc + 1 + n) (hto : pc + 1 + n ≤ hi) : (asbx op a n).StaysIn pc lo hi := by
  intro t ht
  rw [targets, ways_eq (opcode?_asbx op a n)] at ht
  obtain ⟨way, hway, rfl⟩ := List.mem_map.mp ht
  cases hturn : way.1 with
  | skip => exact absurd hturn (hop _ _ way hway)
  | next =>
    rw [target]
    omega
  | jump =>
    rw [target, offset_asbx op a hn]
    exact ⟨hfrom, hto⟩

end Instruction

namespace Workspace

/-- Code was added that stays between a position and its end. -/
structure Contained (w : Workspace) (lo : Nat) (w' : Workspace) : Prop extends Appends w w' where
  code : ∀ pc, w.draft.pc ≤ pc → pc < w'.draft.pc →
    ∃ i, w'.draft.code[pc]? = some i ∧ i.StaysIn pc lo w'.draft.pc

theorem Straight.contained (h : w.Straight a w') (hlo : lo ≤ w.draft.pc) : w.Contained lo w' := by
  refine ⟨h.toAppends, fun pc hge hlt => ?_⟩
  obtain ⟨i, hi, -, hon⟩ := h.code pc hge hlt
  exact ⟨i, hi, hon.staysIn (Nat.le_trans hlo hge)⟩

namespace Contained

theorem of_pc_eq (h : w.Appends w') (hpc : w'.draft.pc = w.draft.pc) (lo : Nat) :
    w.Contained lo w' := ⟨h, fun pc hge hlt => by omega⟩

theorem refl (w : Workspace) (lo : Nat) : w.Contained lo w := of_pc_eq (.refl w) rfl lo

theorem trans (h₁ : w.Contained lo w₁) (h₂ : w₁.Contained lo w₂) : w.Contained lo w₂ := by
  refine ⟨h₁.toAppends.trans h₂.toAppends, fun pc hge hlt => ?_⟩
  by_cases hmid : pc < w₁.draft.pc
  · obtain ⟨i, hi, hstays⟩ := h₁.code pc hge hmid
    exact ⟨i, (h₂.kept pc hmid).trans hi, hstays.mono h₂.pc⟩
  · exact h₂.code pc (Nat.not_lt.mp hmid) hlt

theorem mono (h : w.Contained lo w') (hle : lo' ≤ lo) : w.Contained lo' w' := by
  refine ⟨h.toAppends, fun pc hge hlt => ?_⟩
  obtain ⟨i, hi, hstays⟩ := h.code pc hge hlt
  refine ⟨i, hi, fun t ht => ?_⟩
  obtain ⟨hfrom, hto⟩ := hstays t ht
  exact ⟨by omega, hto⟩

/-- Some instructions of the added code were replaced, and locals that are new were changed. -/
theorem change (h : w.Contained lo w₁)
    (hlimit : w₂.draft.registers.limit = w₁.draft.registers.limit)
    (hlocals : ∀ (i : Nat) (v : Local), i < w.draft.locals.size → w₁.draft.locals[i]? = some v →
      w₂.draft.locals[i]? = some v)
    (hpc : w₂.draft.pc = w₁.draft.pc)
    (hcode : ∀ pc, w₂.draft.code[pc]? = w₁.draft.code[pc]? ∨ w.draft.pc ≤ pc ∧
      ∃ i, w₂.draft.code[pc]? = some i ∧ i.StaysIn pc lo w₁.draft.pc) : w.Contained lo w₂ := by
  refine ⟨⟨hlimit.trans h.limit, fun i v hv => ?_, hpc ▸ h.pc, fun pc hlt => ?_⟩,
    fun pc hge hlt => ?_⟩
  · obtain ⟨b, hb⟩ := h.locals i v hv
    exact ⟨b, hlocals i _ (Array.getElem?_eq_some_iff.mp hv).1 hb⟩
  · rcases hcode pc with heq | ⟨hge, -⟩
    · exact heq.trans (h.kept pc hlt)
    · omega
  · rw [hpc] at hlt ⊢
    rcases hcode pc with heq | ⟨-, hnew⟩
    · rw [heq]
      exact h.code pc hge hlt
    · exact hnew

theorem setCode {pc : Nat} (h : w.Contained lo w₁) (hdraft : w₂.draft = w₁.draft.setCode pc i)
    (hpc : w.draft.pc ≤ pc) (hlt : pc < w₁.draft.pc) (hstays : i.StaysIn pc lo w₁.draft.pc) :
    w.Contained lo w₂ := by
  refine h.change (by rw [hdraft]; rfl) (fun j v _ hv => by rw [hdraft]; exact hv) ?_ fun q => ?_
  · rw [hdraft]
    exact Array.size_setIfInBounds
  · rw [hdraft, Draft.setCode]
    by_cases hq : pc = q
    · subst hq
      exact Or.inr ⟨hpc, i, Array.getElem?_setIfInBounds_self_of_lt hlt, hstays⟩
    · exact Or.inl (Array.getElem?_setIfInBounds_ne hq)

end Contained

/-- One instruction was added. -/
theorem Writes.contained (h : w.Writes [i] w') (hstays : i.StaysIn w.draft.pc lo (w.draft.pc + 1)) :
    w.Contained lo w' := by
  refine ⟨.of_grows h.grows, fun pc hge hlt => ?_⟩
  have hpc := h.pc
  rw [List.length_singleton] at hpc
  obtain rfl : pc = w.draft.pc := by omega
  exact ⟨i, h.code 0 i rfl, hpc ▸ hstays⟩

/-- Two instructions were added. -/
theorem Writes.contained_pair {j : Instruction} (h : w.Writes [i, j] w')
    (hi : i.StaysIn w.draft.pc lo (w.draft.pc + 2))
    (hj : j.StaysIn (w.draft.pc + 1) lo (w.draft.pc + 2)) : w.Contained lo w' := by
  refine ⟨.of_grows h.grows, fun pc hge hlt => ?_⟩
  have hpc : w'.draft.pc = w.draft.pc + 2 := h.pc
  rw [hpc] at hlt ⊢
  obtain rfl | rfl : pc = w.draft.pc ∨ pc = w.draft.pc + 1 := by omega
  · exact ⟨i, h.code 0 i rfl, hi⟩
  · exact ⟨j, h.code 1 j rfl, hj⟩

end Workspace

/-! ## Scopes without what their breaks have left -/

namespace Scope

/-- A pending break of which only the place counts. -/
def breakAt (pc : Nat) : OpenBreak := { pc, depth := 0, close := 0 }

/-- A scope with only the places of its pending breaks. -/
def bare (s : Scope) : Scope := { s with breaks := s.breaks.map (·.map fun b => breakAt b.pc) }

@[simp] theorem map_bare_addBreaks (bs : List OpenBreak) (scopes : List Scope) :
    (addBreaks bs scopes).map bare =
      addBreaks (bs.map fun b => breakAt b.pc) (scopes.map bare) := by
  induction scopes with
  | nil => rfl
  | cons s rest ih => cases hs : s.breaks <;> simp [addBreaks, bare, hs, ih]

@[simp] theorem map_bare_addLocals (new : List Nat) (scopes : List Scope) :
    (addLocals new scopes).map bare = addLocals new (scopes.map bare) := by
  cases scopes <;> rfl

@[simp] theorem map_bare_raiseBreaks (depth close : Nat) (scopes : List Scope) :
    (raiseBreaks depth close scopes).map bare = scopes.map bare := by
  induction scopes with
  | nil => rfl
  | cons s rest ih =>
    cases hs : s.breaks with
    | none => simp [raiseBreaks, hs, ih]
    | some bs => simp [raiseBreaks, bare, hs]

end Scope

namespace Workspace

/-- Contained code was added. The locals that were declared are with the innermost scope and
the breaks at the places listed, in the order of their places, with the innermost loop. -/
structure Carries (w : Workspace) (lo : Nat) (sites : List Nat) (w' : Workspace) : Prop
    extends Contained w lo w' where
  within : ∀ pc ∈ sites, w.draft.pc ≤ pc ∧ pc < w'.draft.pc
  scopes : ∃ new : List Nat, (∀ i ∈ new, w.draft.locals.size ≤ i) ∧
    w'.draft.scopes.map Scope.bare = Scope.addBreaks (sites.reverse.map Scope.breakAt)
      (Scope.addLocals new (w.draft.scopes.map Scope.bare))

namespace Carries

/-- The scopes are what they were. -/
theorem of_contained (h : w.Contained lo w') (hscopes : w'.draft.scopes = w.draft.scopes) :
    w.Carries lo [] w' := by
  refine ⟨h, nofun, [], nofun, ?_⟩
  rw [hscopes, Scope.addLocals_nil]
  exact (Scope.addBreaks_nil _).symm

theorem refl (w : Workspace) (lo : Nat) : w.Carries lo [] w := of_contained (.refl w lo) rfl

theorem mono (h : w.Carries lo sites w') (hle : lo' ≤ lo) : w.Carries lo' sites w' :=
  ⟨h.toContained.mono hle, h.within, h.scopes⟩

theorem trans (h₁ : w.Carries lo sites w₁) (h₂ : w₁.Carries lo sites' w₂) :
    w.Carries lo (sites ++ sites') w₂ := by
  refine ⟨h₁.toContained.trans h₂.toContained, fun pc hpc => ?_, ?_⟩
  · have hle₁ := h₁.pc
    have hle₂ := h₂.pc
    rcases List.mem_append.mp hpc with hpc | hpc
    · obtain ⟨hge, hlt⟩ := h₁.within pc hpc
      exact ⟨hge, by omega⟩
    · obtain ⟨hge, hlt⟩ := h₂.within pc hpc
      exact ⟨by omega, hlt⟩
  · obtain ⟨new, hnew, hscopes⟩ := h₁.scopes
    obtain ⟨new', hnew', hscopes'⟩ := h₂.scopes
    have hsize := h₁.size_le
    refine ⟨new' ++ new, fun i hi => ?_, ?_⟩
    · rcases List.mem_append.mp hi with hi | hi
      · exact Nat.le_trans hsize (hnew' i hi)
      · exact hnew i hi
    · rw [hscopes', hscopes, Scope.addLocals_addBreaks, Scope.addBreaks_addBreaks,
        Scope.addLocals_addLocals, List.reverse_append, List.map_append]

theorem trans_contained (h₁ : w.Carries lo sites w₁) (h₂ : w₁.Contained lo w₂)
    (hscopes : w₂.draft.scopes = w₁.draft.scopes) : w.Carries lo sites w₂ :=
  List.append_nil sites ▸ h₁.trans (of_contained h₂ hscopes)

/-- An instruction of the added code is replaced by another. -/
theorem setCode {pc : Nat} (h : w.Carries lo sites w₁) (hdraft : w₂.draft = w₁.draft.setCode pc i)
    (hpc : w.draft.pc ≤ pc) (hlt : pc < w₁.draft.pc) (hstays : i.StaysIn pc lo w₁.draft.pc) :
    w.Carries lo sites w₂ := by
  have hsize : w₂.draft.pc = w₁.draft.pc := by
    rw [hdraft]
    exact Array.size_setIfInBounds
  refine ⟨h.toContained.setCode hdraft hpc hlt hstays, fun q hq => ?_, ?_⟩
  · rw [hsize]
    exact h.within q hq
  · rw [hdraft]
    exact h.scopes

end Carries

end Workspace

/-! ## Declaring locals -/

namespace Draft

/-- The local at an index, as far as it is told apart from others in the finished table. -/
structure HasLocal (d : Draft) (i : Nat) (x : String) (slot startPc endPc : Nat) : Prop where
  entry : ∃ v, d.locals[i]? = some v ∧ v.name = x ∧ v.slot = slot ∧ v.startPc = startPc ∧
    v.endPc = endPc

end Draft

namespace Workspace

/-- Locals with these names were declared, in the next registers. -/
structure Introduces (w : Workspace) (startPc : Nat) (names : List String) (w' : Workspace) :
    Prop where
  code : w'.draft.code = w.draft.code
  limit : w'.draft.registers.limit = w.draft.registers.limit
  used : w'.used = w.used + names.length
  room : names ≠ [] → w'.used ≤ w.draft.registers.limit
  size : w'.draft.locals.size = w.draft.locals.size + names.length
  kept : ∀ (i : Nat) (v : Local), w.draft.locals[i]? = some v → w'.draft.locals[i]? = some v
  scopes : w'.draft.scopes = Scope.addLocals
    (List.range' w.draft.locals.size names.length).reverse w.draft.scopes
  named : ∀ (k : Nat) (x : String), names[k]? = some x →
    w'.draft.HasLocal (w.draft.locals.size + k) x (w.used + k) startPc startPc

theorem Introduces.pc (h : w.Introduces startPc names w') :
    w'.draft.pc = w.draft.pc := congrArg Array.size h.code

theorem Introduces.appends (h : w.Introduces startPc names w') : w.Appends w' :=
  ⟨h.limit, fun i v hv => ⟨v.captured, h.kept i v hv⟩, Nat.le_of_eq h.pc.symm,
    fun i _ => by rw [h.code]⟩

theorem Introduces.carries (h : w.Introduces startPc names w') (lo : Nat) : w.Carries lo [] w' := by
  refine ⟨.of_pc_eq h.appends h.pc lo, nofun,
    (List.range' w.draft.locals.size names.length).reverse, fun i hi => ?_, ?_⟩
  · exact (List.mem_range'_1.mp (List.mem_reverse.mp hi)).1
  · rw [h.scopes, Scope.map_bare_addLocals]
    exact (Scope.addBreaks_nil _).symm

end Workspace

theorem declareLocal_introduces (x : String) (startPc : Nat) :
    Ensures False (declareLocal x startPc) w fun r w' =>
      r = w.used ∧ w.Introduces startPc [x] w' := by
  refine (takeRegister_writes.and takeRegister_ensures).bind fun r w₁ h => ?_
  obtain ⟨⟨-, rfl, hused, hroom⟩, -, registers, hlimit, rfl⟩ := h
  rw [ensures_update_bind, ensures_pure]
  refine ⟨rfl, rfl, hlimit, hused, fun _ => hlimit ▸ hroom, Array.size_push _, ?_, ?_, ?_⟩
  · exact fun i v hv => Keeps.push _ _ _ _ hv
  · dsimp only
    cases w.draft.scopes <;> rfl
  · intro k y hk
    obtain ⟨rfl, rfl⟩ : k = 0 ∧ x = y := by
      cases k with
      | zero => exact ⟨rfl, Option.some.inj hk⟩
      | succ k => cases hk
    exact ⟨_, Array.getElem?_push_size, rfl, rfl, rfl, rfl⟩

theorem declareLocals_introduces (startPc : Nat) (names : List String) :
    ∀ w : Workspace, Ensures False (declareLocals startPc names) w fun _ w' =>
      w.Introduces startPc names w' := by
  induction names with
  | nil =>
    refine fun w => ⟨rfl, rfl, rfl, fun h => absurd rfl h, rfl, fun _ _ hv => hv, ?_, nofun⟩
    exact (Scope.addLocals_nil _).symm
  | cons x rest ih =>
    intro w
    refine (declareLocal_introduces x startPc).bind fun _ w₁ h₁ => ?_
    obtain ⟨-, h₁⟩ := h₁
    refine (ih w₁).mono fun _ w₂ h₂ => ?_
    have hused : w₁.used = w.used + 1 := h₁.used
    have hsize : w₁.draft.locals.size = w.draft.locals.size + 1 := h₁.size
    refine ⟨h₂.code.trans h₁.code, h₂.limit.trans h₁.limit, ?_, fun _ => ?_, ?_,
      fun i v hv => h₂.kept i v (h₁.kept i v hv), ?_, fun k y hk => ?_⟩
    · rw [h₂.used, hused, List.length_cons]
      omega
    · by_cases hrest : rest = []
      · subst hrest
        have hlast := h₂.used
        have hroom := h₁.room (by simp)
        simp only [List.length_nil] at hlast
        omega
      · exact h₁.limit ▸ h₂.room hrest
    · rw [h₂.size, hsize, List.length_cons]
      omega
    · have hone : (List.range' w.draft.locals.size [x].length).reverse =
          [w.draft.locals.size] := rfl
      rw [h₂.scopes, h₁.scopes, Scope.addLocals_addLocals, hsize, hone, List.length_cons,
        List.range'_succ, List.reverse_cons]
    · cases k with
      | zero =>
        obtain ⟨v, hv, hnamed⟩ := (h₁.named 0 y hk).entry
        exact ⟨v, h₂.kept _ v hv, hnamed⟩
      | succ k =>
        have hnamed := h₂.named k y hk
        rw [hused, hsize] at hnamed
        rwa [Nat.add_right_comm _ 1 k, Nat.add_right_comm _ 1 k] at hnamed

/-! ## Leaving a scope -/

/-- A local that ends at a position, or where it starts if that is later. -/
def Local.ended (v : Local) (endPc : Nat) : Local := { v with endPc := max endPc v.startPc }

@[simp] theorem Local.ended_ended (v : Local) (endPc : Nat) :
    (v.ended endPc).ended endPc = v.ended endPc := rfl

theorem endLocals_locals (endPc : Nat) (is : List Nat) :
    ∀ w : Workspace, Ensures False (endLocals endPc is) w fun _ w' =>
      ∀ (i : Nat) (v : Local), w.draft.locals[i]? = some v →
        w'.draft.locals[i]? = some (if i ∈ is then v.ended endPc else v) := by
  induction is with
  | nil => exact fun w i v hv => by simpa using hv
  | cons j rest ih =>
    intro w
    have hfirst : Ensures False (endLocal endPc j) w fun _ w' =>
        ∀ (i : Nat) (v : Local), w.draft.locals[i]? = some v →
          w'.draft.locals[i]? = some (if i = j then v.ended endPc else v) := by
      refine (localAt_ensures j).bind fun u w₁ h => ?_
      obtain ⟨hu, rfl⟩ := h
      rw [ensures_update_bind]
      refine (giveBack_ensures (givesBack_release u.slot)).mono fun _ w₂ h => ?_
      obtain ⟨registers, -, rfl⟩ := h
      intro i v hv
      show (w₁.draft.locals.setIfInBounds j (u.ended endPc))[i]? = _
      by_cases hij : i = j
      · subst hij
        obtain rfl := Option.some.inj (hu.symm.trans hv)
        rw [if_pos rfl,
          Array.getElem?_setIfInBounds_self_of_lt (Array.getElem?_eq_some_iff.mp hv).1]
      · rw [if_neg hij, Array.getElem?_setIfInBounds_ne (fun h => hij h.symm)]
        exact hv
    refine hfirst.bind fun _ w₁ h₁ => (ih w₁).mono fun _ w₂ h₂ i v hv => ?_
    rw [h₂ i _ (h₁ i v hv)]
    by_cases hij : i = j <;> by_cases hi : i ∈ rest <;> simp [hij, hi]

namespace Workspace

/-- The innermost scope was left, and its locals ended at a position. -/
structure Closes (w : Workspace) (endPc : Nat) (scope : Scope) (outer : List Scope)
    (w' : Workspace) : Prop where
  limit : w'.draft.registers.limit = w.draft.registers.limit
  locals : ∀ (i : Nat) (v : Local), w.draft.locals[i]? = some v →
    w'.draft.locals[i]? = some (if i ∈ scope.locals then v.ended endPc else v)
  leaves : ∃ level, w.draft.Leaves level scope outer w'.draft

end Workspace

theorem closeScope_locals (endPc : Nat) (hscopes : w.draft.scopes = scope :: outer) :
    Ensures False (closeScope endPc) w fun _ w' =>
      ∀ (i : Nat) (v : Local), w.draft.locals[i]? = some v →
        w'.draft.locals[i]? = some (if i ∈ scope.locals then v.ended endPc else v) := by
  refine closeLevel_ensures.bind fun level w₁ h => ?_
  subst h
  rw [ensures_view_bind, hscopes]
  dsimp only
  cases scope.breaks with
  | some bs =>
    dsimp only
    rw [ensures_update_bind, ensures_here_bind]
    refine (patchBreaks_ensures level bs.reverse le_rfl).bind fun _ w₂ h => ?_
    obtain ⟨⟨code, hdraft⟩, -⟩ := h
    refine (endLocals_locals endPc scope.locals w₂).bind fun _ w₃ h₃ => ?_
    rw [ensures_record]
    exact fun i v hv => h₃ i v (by rw [hdraft]; exact hv)
  | none =>
    dsimp only
    rw [ensures_update_bind]
    refine (endLocals_locals endPc scope.locals _).bind fun _ w₃ h₃ => ?_
    rw [ensures_record]
    exact fun i v hv => h₃ i v hv

theorem closeScope_closes (endPc : Nat) (hscopes : w.draft.scopes = scope :: outer) :
    Ensures False (closeScope endPc) w fun _ w' => w.Closes endPc scope outer w' := by
  refine ((closeScope_ensures endPc).and (closeScope_locals endPc hscopes)).mono fun _ w' h => ?_
  obtain ⟨⟨hslots, hleaves⟩, hlocals⟩ := h
  rw [hscopes] at hleaves
  obtain ⟨level, -, hleaves⟩ := hleaves
  exact ⟨hslots.limit, hlocals, level, hleaves⟩

namespace Workspace

/-- A scope was entered, and the locals that are with it are new. -/
structure Enters (w : Workspace) (lo : Nat) (top : Scope) (w' : Workspace) : Prop
    extends Contained w lo w' where
  scopes : w'.draft.scopes = top :: w.draft.scopes
  new : ∀ i ∈ top.locals, w.draft.locals.size ≤ i

/-- The scope of a loop was left: the breaks at the places listed lead to the end of the code,
and the locals at the indexes listed end at a position. -/
structure ExitsLoop (w : Workspace) (sites declared : List Nat) (endPc : Nat) (w' : Workspace) :
    Prop where
  pc : w'.draft.pc = w.draft.pc
  rest : ∀ pc ∉ sites, w'.draft.code[pc]? = w.draft.code[pc]?
  breaks : ∀ pc ∈ sites, ∃ level, (w.draft.pc - pc - 1 : Int).natAbs ≤ Instruction.maxOffset ∧
    w'.draft.code[pc]? = some (.asbx .jmp level (w.draft.pc - pc - 1))
  ended : ∀ i ∈ declared, ∀ v, w.draft.locals[i]? = some v →
    w'.draft.locals[i]? = some (v.ended endPc)

variable {top : Scope}

/-- What is with the innermost scope and what with the scopes around it, at the end of a loop. -/
theorem Carries.loop (h : w₁.Carries lo sites w₂) (htop : w₁.draft.scopes = top :: outer)
    (hbreaks : top.breaks = some []) :
    ∃ scope outer' new bs, w₂.draft.scopes = scope :: outer' ∧ scope.locals = new ++ top.locals ∧
      (∀ i ∈ new, w₁.draft.locals.size ≤ i) ∧ scope.breaks = some bs ∧
      bs.map (·.pc) = sites.reverse ∧ outer'.map Scope.bare = outer.map Scope.bare := by
  obtain ⟨new, hnew, hscopes⟩ := h.scopes
  have hbare : ({ top.bare with locals := new ++ top.bare.locals } : Scope).breaks = some [] := by
    simp [Scope.bare, hbreaks]
  rw [htop, List.map_cons, Scope.addLocals, Scope.addBreaks_cons_loop hbare, List.append_nil]
    at hscopes
  obtain ⟨scope, outer', hscope, hbare, houter⟩ := List.map_eq_cons_iff.mp hscopes
  have hlocals : scope.locals = new ++ top.locals := congrArg Scope.locals hbare
  have hplaces : scope.breaks.map (·.map fun b => Scope.breakAt b.pc) =
      some (sites.reverse.map Scope.breakAt) := congrArg Scope.breaks hbare
  obtain ⟨bs, hbs, hmap⟩ := Option.map_eq_some_iff.mp hplaces
  refine ⟨scope, outer', new, bs, hscope, hlocals, hnew, hbs, ?_, houter⟩
  have hpcs := congrArg (List.map OpenBreak.pc) hmap
  rw [List.map_map, List.map_map] at hpcs
  simpa [Function.comp_def, Scope.breakAt] using hpcs

/-- The same at the end of a scope that is no loop. -/
theorem Carries.block (h : w₁.Carries lo sites w₂) (htop : w₁.draft.scopes = top :: outer)
    (hbreaks : top.breaks = none) :
    ∃ scope outer' new, w₂.draft.scopes = scope :: outer' ∧ scope.locals = new ++ top.locals ∧
      (∀ i ∈ new, w₁.draft.locals.size ≤ i) ∧ scope.breaks = none ∧
      outer'.map Scope.bare =
        Scope.addBreaks (sites.reverse.map Scope.breakAt) (outer.map Scope.bare) := by
  obtain ⟨new, hnew, hscopes⟩ := h.scopes
  have hbare : ({ top.bare with locals := new ++ top.bare.locals } : Scope).breaks = none := by
    simp [Scope.bare, hbreaks]
  rw [htop, List.map_cons, Scope.addLocals, Scope.addBreaks_cons_plain hbare] at hscopes
  obtain ⟨scope, outer', hscope, hbare, houter⟩ := List.map_eq_cons_iff.mp hscopes
  have hlocals : scope.locals = new ++ top.locals := congrArg Scope.locals hbare
  have hnone : scope.breaks.map (·.map fun b => Scope.breakAt b.pc) = none := by
    refine (congrArg Scope.breaks hbare).trans ?_
    simp [Scope.bare, hbreaks]
  exact ⟨scope, outer', new, hscope, hlocals, hnew, Option.map_eq_none_iff.mp hnone, houter⟩

end Workspace

/-- The locals that were there before a scope was entered are not ended with it. -/
theorem Workspace.Closes.keeps {top : Scope} {new : List Nat} {endPc : Nat}
    (h : w₂.Closes endPc scope outer w₃) (hopen : w.Enters lo top w₁)
    (hlocals : scope.locals = new ++ top.locals) (hnew : ∀ i ∈ new, w₁.draft.locals.size ≤ i)
    (i : Nat) (v : Local) (hi : i < w.draft.locals.size) (hv : w₂.draft.locals[i]? = some v) :
    w₃.draft.locals[i]? = some v := by
  have hsize := hopen.size_le
  rw [h.locals i v hv, if_neg]
  intro hmem
  rcases List.mem_append.mp (hlocals ▸ hmem) with hmem | hmem
  · have hge := hnew i hmem
    omega
  · have hge := hopen.new i hmem
    omega

section

variable {top : Scope} (hopen : w.Enters lo top w₁) (hbody : w₁.Carries lo sites w₂)

include hopen hbody

theorem closeScope_exits (hbreaks : top.breaks = some []) (hlo : lo ≤ w.draft.pc) (endPc : Nat) :
    Ensures False (closeScope endPc) w₂ fun _ w₃ =>
      w₂.ExitsLoop sites top.locals endPc w₃ ∧ w.Carries lo [] w₃ := by
  obtain ⟨scope, outer, new, bs, hscopes, hlocals, hnew, hbs, hsites, houter⟩ :=
    hbody.loop hopen.scopes hbreaks
  refine (closeScope_closes endPc hscopes).mono fun _ w₃ h => ?_
  have hkeeps := h.keeps hopen hlocals hnew
  obtain ⟨level, hleaves⟩ := h.leaves
  cases hleaves with
  | block hnone => cases hbs.symm.trans hnone
  | loop hsome hscopes' hcode =>
    obtain rfl := Option.some.inj (hbs.symm.trans hsome)
    have hmem : ∀ pc, pc ∈ sites ↔ ∃ b ∈ bs.reverse, b.pc = pc := by
      intro pc
      rw [← List.mem_reverse, ← hsites, List.mem_map]
      simp
    have hpc : w₃.draft.pc = w₂.draft.pc := hcode.size
    have hleft : w₂.ExitsLoop sites top.locals endPc w₃ := by
      refine ⟨hpc, fun pc hpc => hcode.rest pc fun b hb heq => ?_, fun pc hpc => ?_, ?_⟩
      · exact hpc ((hmem pc).mpr ⟨b, hb, heq⟩)
      · obtain ⟨b, hb, rfl⟩ := (hmem pc).mp hpc
        obtain ⟨b', -, -, hreach, hjump⟩ := hcode.jumps b hb
        exact ⟨_, hreach, hjump⟩
      · intro i hi v hv
        rw [h.locals i v hv, if_pos (hlocals ▸ List.mem_append_right new hi)]
    have hcontained : w.Contained lo w₃ := by
      have hin := hopen.toContained.trans hbody.toContained
      refine hin.change h.limit hkeeps hpc fun pc => ?_
      by_cases hpc : pc ∈ sites
      · obtain ⟨level, hreach, hjump⟩ := hleft.breaks pc hpc
        obtain ⟨hge, hlt⟩ := hbody.within pc hpc
        have hle := hopen.pc
        refine Or.inr ⟨by omega, _, hjump, ?_⟩
        refine Instruction.staysIn_asbx (fun _ _ way hway => ?_) hreach ?_ ?_ ?_ ?_
        · simp only [Opcode.ways, List.mem_singleton] at hway
          simp [hway]
        all_goals omega
      · exact Or.inl (hleft.rest pc hpc)
    refine ⟨hleft, hcontained, List.forall_mem_nil _, [], List.forall_mem_nil _, ?_⟩
    rw [hscopes', houter, Scope.addLocals_nil]
    exact (Scope.addBreaks_nil _).symm

theorem closeScope_carries (hbreaks : top.breaks = none) (endPc : Nat) :
    Ensures False (closeScope endPc) w₂ fun _ w₃ =>
      w₃.draft.code = w₂.draft.code ∧ w.Carries lo sites w₃ := by
  obtain ⟨scope, outer, new, hscopes, hlocals, hnew, hnone, houter⟩ :=
    hbody.block hopen.scopes hbreaks
  refine (closeScope_closes endPc hscopes).mono fun _ w₃ h => ?_
  have hkeeps := h.keeps hopen hlocals hnew
  obtain ⟨level, hleaves⟩ := h.leaves
  cases hleaves with
  | loop hsome => exact absurd (hnone.symm.trans hsome) nofun
  | block _ hscopes' hcode =>
    have hpc : w₃.draft.pc = w₂.draft.pc := congrArg Array.size hcode
    have hin := hopen.toContained.trans hbody.toContained
    refine ⟨hcode, hin.change h.limit hkeeps hpc fun pc => Or.inl (by rw [hcode]),
      fun pc hmem => ?_, [], nofun, ?_⟩
    · obtain ⟨hge, hlt⟩ := hbody.within pc hmem
      have hle := hopen.pc
      omega
    · rw [hscopes', Scope.map_bare_raiseBreaks, houter, Scope.addLocals_nil]

end

end LuaLowering
