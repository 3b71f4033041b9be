import LuaLowering.Proofs.Layout.Statement

/-!
# A statement keeps to itself

Lowering goes back to what it has written: jumps are aimed once their target is known,
leaving a scope rewrites the breaks that are pending and the ranges of locals, and a loop
moves the ends of its hidden locals. All of this is by position, and nothing but the
positions keeps it away from what was there before.

It stays away from it. What a statement finds is there afterwards as it was, down to the
breaks that wait for the loops around it, and the jumps of its own code lead to places
from its first instruction to the one behind its last. A break that waits for a loop
around the statement is no exception: until it is aimed it leads to the next instruction.

The one thing that has to be known of the state before is how deep pending breaks stand,
for leaving a scope goes by that. `Draft.BreaksNested` is an invariant of all that can
happen to a function.
-/

namespace LuaLowering

open LowerM

variable {o : Options} {w w' : Workspace}

/-- Wherever a compilation has come to, pending breaks are nested like their loops. -/
theorem Underway.breaksNested (h : Underway o w) : ∀ d ∈ w.stack, d.BreaksNested :=
  h.forall_stack (fun _ => trivial) trivial fun _ _ he => he.breaks

/-! ## Breaks of which the places are known -/

namespace Scope

variable {scopes scopes' : List Scope} {is new : List Nat} {bs : List OpenBreak}

/-- Breaks are where they are said to be if they are recorded at all. -/
theorem exists_addBreaks_of_bare {sites : List Nat} (bs : List OpenBreak) (scopes : List Scope)
    (h : addBreaks (bs.map fun b => breakAt b.pc) (scopes.map bare) =
      addBreaks (sites.map breakAt) (scopes.map bare)) :
    ∃ bs', (∀ b ∈ bs', b.pc ∈ sites) ∧ addBreaks bs scopes = addBreaks bs' scopes := by
  induction scopes with
  | nil => exact ⟨[], fun _ hb => absurd hb List.not_mem_nil, rfl⟩
  | cons s rest ih =>
    cases hs : s.breaks with
    | some old =>
      refine ⟨bs, fun b hb => ?_, rfl⟩
      have hbare : s.bare.breaks = some (old.map fun b => breakAt b.pc) := by
        rw [bare, hs]
        rfl
      rw [List.map_cons, addBreaks_cons_loop hbare, addBreaks_cons_loop hbare] at h
      have hbreaks := congrArg Scope.breaks (List.cons.inj h).1
      have hmap : bs.map (fun b => breakAt b.pc) = sites.map breakAt :=
        List.append_cancel_right (Option.some.inj hbreaks)
      have hmem := List.mem_map_of_mem (f := fun b => breakAt b.pc) hb
      rw [hmap] at hmem
      obtain ⟨pc, hpc, heq⟩ := List.mem_map.mp hmem
      exact congrArg OpenBreak.pc heq ▸ hpc
    | none =>
      have hbare : s.bare.breaks = none := by
        rw [bare, hs]
        rfl
      rw [List.map_cons, addBreaks_cons_plain hbare, addBreaks_cons_plain hbare] at h
      obtain ⟨bs', hsites, heq⟩ := ih (List.cons.inj h).2
      exact ⟨bs', hsites, by rw [addBreaks_cons_plain hs, addBreaks_cons_plain hs, heq]⟩

/-- What the scopes have got, once from its depth and once from its places. -/
theorem Extends.exists_of_bare {sites : List Nat} (h : Extends is scopes scopes')
    (hbare : scopes'.map bare =
      addBreaks (sites.map breakAt) (addLocals new (scopes.map bare))) :
    ∃ bs, (∀ b ∈ bs, b.pc ∈ sites) ∧ scopes' = addBreaks bs (addLocals new scopes) := by
  obtain ⟨bs, -, rfl⟩ := h
  have his : addLocals is scopes = addLocals new scopes := by
    cases scopes with
    | nil => rfl
    | cons s rest =>
      have hframes := congrArg frames hbare
      rw [map_bare_addBreaks, map_bare_addLocals, frames_addBreaks, frames_addBreaks] at hframes
      have hlocals := congrArg Prod.fst (List.cons.inj hframes).1
      rw [List.append_cancel_right hlocals]
  rw [his, map_bare_addBreaks, ← map_bare_addLocals] at hbare
  obtain ⟨bs', hsites, heq⟩ := exists_addBreaks_of_bare bs _ hbare
  exact ⟨bs', hsites, his ▸ heq⟩

end Scope

/-! ## What a statement leaves alone -/

/-- The four instructions that hold an offset. -/
def Opcode.hasOffset : Opcode → Bool
  | .jmp | .forPrep | .forLoop | .tForLoop => true
  | _ => false

namespace Workspace

/-- What the function being written had got is there as it was, and the jumps of what it has
got since lead to places in there. -/
structure KeepsApart (w w' : Workspace) : Prop where
  pc : w.draft.pc ≤ w'.draft.pc
  code : ∀ pc < w.draft.pc, w'.draft.code[pc]? = w.draft.code[pc]?
  lines : Keeps w.draft.lines w'.draft.lines
  constants : Keeps w.draft.constants w'.draft.constants
  upvalues : Keeps w.draft.upvalues w'.draft.upvalues
  nested : Keeps w.draft.nested w'.draft.nested
  locals : ∀ (i : Nat) (v : Local), w.draft.locals[i]? = some v →
    ∃ captured, w'.draft.locals[i]? = some { v with captured }
  -- the new locals and breaks come before those that were there
  scopes : ∃ new bs, (∀ i ∈ new, w.draft.locals.size ≤ i) ∧
    (∀ b ∈ bs, w.draft.pc ≤ b.pc ∧ b.pc < w'.draft.pc) ∧
    w'.draft.scopes = Scope.addBreaks bs (Scope.addLocals new w.draft.scopes)
  jumps : ∀ (pc : Nat) (i : Instruction) (op : Opcode), w.draft.pc ≤ pc →
    w'.draft.code[pc]? = some i → i.opcode? = some op → op.hasOffset = true →
    (w.draft.pc : Int) ≤ pc + 1 + i.offset ∧ pc + 1 + i.offset ≤ w'.draft.pc

end Workspace

/-- An instruction with an offset may go on where it leads. -/
theorem Instruction.jump_mem_targets {i : Instruction} {op : Opcode} (hop : i.opcode? = some op)
    (hoffset : op.hasOffset = true) (pc : Nat) : (pc + 1 + i.offset : Int) ∈ i.targets pc := by
  rw [targets, ways_eq hop]
  cases op with
  | jmp | forPrep | forLoop | tForLoop => simp [target]
  | _ => cases hoffset

/-- Lowering a statement leaves alone what it finds, and its jumps stay inside it. -/
theorem Stat.lower_keepsApart (hw : Underway o w) {s : Stat} (hrun : s.lower w = .ok () w') :
    w.KeepsApart w' := by
  have hcarries := (s.lower_carries w).of_ok hrun
  have hevolves := (evolving_stepwise.stat s w).of_ok hrun
  obtain ⟨hdraft, -⟩ := List.forall₂_cons.mp hevolves.stack
  obtain ⟨-, added, hadds, -⟩ := ((Stat.lower_extends s).vets w).of_ok hrun
  have hnested := hw.breaksNested _ List.mem_cons_self
  have hextends := hadds.pending (hnested.below le_rfl)
  refine ⟨hcarries.pc, hcarries.kept, hdraft.lines, ?_, hdraft.upvalues, hdraft.nested,
    hcarries.locals, ?_, fun pc i op hge hi hop hoffset => ?_⟩
  · exact ((worksOn_lasting.stepwise.stat s w).of_ok hrun).constants
  · obtain ⟨new, hnew, hscopes⟩ := hcarries.scopes
    obtain ⟨bs, hsites, heq⟩ := hextends.exists_of_bare hscopes
    exact ⟨new, bs, hnew, fun b hb => hcarries.within _ (List.mem_reverse.mp (hsites b hb)), heq⟩
  · obtain ⟨j, hj, hstays⟩ := hcarries.code pc hge (Array.getElem?_eq_some_iff.mp hi).1
    obtain rfl := Option.some.inj (hj.symm.trans hi)
    exact hstays _ (Instruction.jump_mem_targets hop hoffset pc)

/-- In a function inside another, a loop that has a break pending comes to an arm with a loop of
its own and a break. -/
theorem Stat.lower_keepsApart_of_pending :
    let inner : Stat := .whileLoop (.name "x") ⟨[.break 3], none, 3⟩ 3
    let s : Stat := .ifChain [⟨.name "x", ⟨[inner, .break 4], none, 4⟩, 3⟩]
    let pending (w : Workspace) := w.draft.scopes.filterMap (·.breaks.map (·.map (·.pc)))
    ∃ w w', Underway {} w ∧ s.lower w = .ok () w' ∧ w.draft.pc = 1 ∧ pending w = [[0]] ∧
      pending w' = [[9, 0]] ∧ w.KeepsApart w' := by
  intro inner s pending
  have hrun : (match openScope true (Workspace.main {}).enter with
      | .ok _ w₁ =>
        match (Stat.break 2).lower w₁ with
        | .ok _ w =>
          match s.lower w with
          | .ok _ w' => decide (w.draft.pc = 1 ∧ pending w = [[0]] ∧ pending w' = [[9, 0]])
          | _ => false
        | _ => false
      | _ => false) = true := by decide +kernel
  split at hrun
  · next w₁ hopen =>
      split at hrun
      · next w hbreak =>
          split at hrun
          · next w' hlower =>
              obtain ⟨hpc, hbefore, hafter⟩ := of_decide_eq_true hrun
              have hw₁ : Underway {} w₁ := .step (.reached (.inside .main)) (.openScope true) hopen
              have hw : Underway {} w := .step hw₁ (.stat (.break 2)) hbreak
              exact ⟨w, w', hw, hlower, hpc, hbefore, hafter, Stat.lower_keepsApart hw hlower⟩
          · cases hrun
      · cases hrun
  · cases hrun

end LuaLowering
