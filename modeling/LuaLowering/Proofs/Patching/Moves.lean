import LuaLowering.Proofs.Surroundings

/-!
# Entering and leaving scopes by hand

The steps that matter to a pending break: entering a scope, declaring a local, writing an
instruction, having a local captured by a function inside, recording a break and leaving
a scope. What each of them does to the open scopes and to the code is said once here.

Leaving a scope is the only one of them that changes an instruction. It does so for the
breaks of a loop, all of which get the same target; those of a scope that is no loop are
raised to the scope around it.
-/

namespace LuaLowering

open LowerM

/-- Something done to a function under construction. -/
inductive Move where
  | enterScope (breakable : Bool)
  | declare (x : String) (startPc : Nat)
  | emit (line : Nat) (i : Instruction)
  /-- A function is opened inside, worked on in any way and left again. -/
  | nest
  | addBreak (pc line : Nat)
  | exitScope (endPc : Nat)

/-- What a move makes of a workspace. -/
def Move.Leads (w w' : Workspace) : Move → Prop
  | .enterScope breakable => openScope breakable w = .ok () w'
  | .declare x startPc => ∃ slot, declareLocal x startPc w = .ok slot w'
  | .emit line i => ∃ pc, LuaLowering.emit line i w = .ok pc w'
  | .nest => ∃ inner, History w.enter inner ∧ w' = inner.leave
  | .addBreak pc line => LuaLowering.addBreak pc line w = .ok () w'
  | .exitScope endPc => closeScope endPc w = .ok () w'

/-! ## Registers of locals -/

namespace Draft

/-- Locals keep their registers, and the limit stays. -/
structure KeepsSlots (d d' : Draft) : Prop where
  limit : d'.registers.limit = d.registers.limit
  slots : ∀ (i : Nat) (v : Local), d.locals[i]? = some v →
    ∃ v', d'.locals[i]? = some v' ∧ v'.slot = v.slot

variable {d d' d'' : Draft}

theorem KeepsSlots.refl (d : Draft) : d.KeepsSlots d := ⟨rfl, fun _ v hv => ⟨v, hv, rfl⟩⟩

theorem KeepsSlots.trans (h₁ : d.KeepsSlots d') (h₂ : d'.KeepsSlots d'') : d.KeepsSlots d'' := by
  refine ⟨h₂.limit.trans h₁.limit, fun i v hv => ?_⟩
  obtain ⟨v', hv', hslot⟩ := h₁.slots i v hv
  obtain ⟨v'', hv'', hslot'⟩ := h₂.slots i v' hv'
  exact ⟨v'', hv'', hslot'.trans hslot⟩

theorem Marked.keepsSlots (h : d.Marked d') : d.KeepsSlots d' := by
  refine ⟨by rw [h.rest], fun i v hv => ?_⟩
  obtain ⟨b, hb, -, -⟩ := h.locals.entry i v hv
  exact ⟨_, hb, rfl⟩

/-- The locals of the open scopes have registers within the limit. -/
def SlotsBounded (d : Draft) : Prop :=
  ∀ i ∈ d.opened, ∃ v, d.locals[i]? = some v ∧ v.slot < d.registers.limit

theorem SlotsBounded.keeps (h : d.SlotsBounded) (hk : d.KeepsSlots d')
    (hopened : ∀ i ∈ d'.opened, i ∈ d.opened) : d'.SlotsBounded := by
  intro i hi
  obtain ⟨v, hv, hlt⟩ := h i (hopened i hi)
  obtain ⟨v', hv', hslot⟩ := hk.slots i v hv
  exact ⟨v', hv', by rw [hslot, hk.limit]; exact hlt⟩

end Draft

variable {w w' : Workspace}

/-! ## Registers and declarations -/

theorem giveBack_ensures {f : Registers → Except Misuse Registers} (hf : GivesBack f) :
    Ensures False (giveBack f) w fun _ w' =>
      ∃ registers, registers.limit = w.draft.registers.limit ∧
        w' = { w with draft := { w.draft with registers } } := by
  rw [giveBack, ensures_view_bind]
  rcases hf w.draft.registers.used with ⟨m, hrun⟩ | ⟨left, -, hrun⟩ <;> rw [hrun _ rfl]
  · exact ensures_misuse.mpr not_false
  · refine ⟨_, ?_, rfl⟩
    rfl

/-- A declaration adds one local to the innermost scope. -/
theorem declareLocal_ensures (x : String) (startPc : Nat) :
    Ensures False (declareLocal x startPc) w fun _ w' =>
      w'.draft.scopes = Scope.addLocals [w.draft.locals.size] w.draft.scopes ∧
      w'.draft.code = w.draft.code ∧ w.draft.KeepsSlots w'.draft ∧
      ∃ v, w'.draft.locals[w.draft.locals.size]? = some v ∧ v.slot < w.draft.registers.limit := by
  refine takeRegister_ensures.bind fun r w₁ h => ?_
  obtain ⟨hr, registers, hlimit, rfl⟩ := h
  rw [ensures_update_bind, ensures_pure]
  refine ⟨?_, rfl, ⟨hlimit, fun i v hv => ⟨v, Keeps.push _ _ _ _ hv, rfl⟩⟩, ?_⟩
  · dsimp only
    cases w.draft.scopes <;> rfl
  · exact ⟨_, Array.getElem?_push_size, hr⟩

/-! ## The close level -/

theorem localsAt_ensures (is : List Nat) :
    Ensures False (localsAt is) w fun vars w' =>
      w' = w ∧ ∀ v ∈ vars, ∃ i ∈ is, w.draft.locals[i]? = some v := by
  induction is with
  | nil => exact ⟨rfl, fun v hv => by cases hv⟩
  | cons i rest ih =>
    refine (localAt_ensures i).bind fun v w₁ h => ?_
    obtain ⟨hv, rfl⟩ := h
    refine ih.bind fun vars w₂ h => ?_
    obtain ⟨rfl, hvars⟩ := h
    refine ⟨rfl, fun u hu => ?_⟩
    rcases List.mem_cons.mp hu with rfl | hu
    · exact ⟨i, List.mem_cons_self, hv⟩
    · obtain ⟨j, hj, hu⟩ := hvars u hu
      exact ⟨j, List.mem_cons_of_mem i hj, hu⟩

theorem closeLevelOf_le {vars : List Local} {limit : Nat} (h : ∀ v ∈ vars, v.slot < limit) :
    closeLevelOf vars ≤ limit := by
  unfold closeLevelOf
  split
  · split
    · next slot hslot =>
      obtain ⟨v, hv, rfl⟩ := List.mem_map.mp (List.min?_mem hslot)
      exact h v (List.mem_of_mem_filter hv)
    · exact Nat.zero_le _
  · exact Nat.zero_le _

/-- A close level stands for a register, one less, or for nothing to close. -/
theorem closeLevel_le {level : Nat} (hslots : w.draft.SlotsBounded)
    (h : closeLevel w = .ok level w') : level ≤ w.draft.registers.limit := by
  have hlevel : Ensures False closeLevel w fun level _ => level ≤ w.draft.registers.limit := by
    rw [closeLevel, ensures_view_bind]
    split
    · exact Nat.zero_le _
    · next scope outer hscopes =>
      refine (localsAt_ensures scope.locals).bind fun vars w₁ h => ?_
      rw [ensures_pure]
      refine closeLevelOf_le fun v hv => ?_
      obtain ⟨i, hi, hvi⟩ := h.2 v hv
      have hopened : i ∈ w.draft.opened := by
        rw [Draft.opened, hscopes]
        exact List.mem_flatMap.mpr ⟨scope, List.mem_cons_self, hi⟩
      obtain ⟨v', hv', hlt⟩ := hslots i hopened
      obtain rfl := Option.some.inj (hvi.symm.trans hv')
      exact hlt
  exact hlevel.of_ok h

/-! ## Patching -/

/-- The jumps of breaks were given a target and close levels, and no other instruction
changed. Of several breaks at one place the last counts. -/
structure Patched (level target : Nat) (bs : List OpenBreak) (code code' : Array Instruction) :
    Prop where
  size : code'.size = code.size
  rest : ∀ pc, (∀ b ∈ bs, b.pc ≠ pc) → code'[pc]? = code[pc]?
  jumps : ∀ b ∈ bs, ∃ b' ∈ bs, b'.pc = b.pc ∧
    (target - b.pc - 1 : Int).natAbs ≤ Instruction.maxOffset ∧
    code'[b.pc]? = some (.asbx .jmp (joinClose b'.close level) (target - b.pc - 1))

theorem Patched.nil (level target : Nat) (code : Array Instruction) :
    Patched level target [] code code := ⟨rfl, fun _ _ => rfl, fun b hb => by cases hb⟩

/-- The jump of one more break, which was patched before the others. -/
theorem Patched.cons {level target : Nat} {b : OpenBreak} {bs : List OpenBreak}
    {code code' : Array Instruction} (hpc : b.pc < code.size)
    (hoffset : (target - b.pc - 1 : Int).natAbs ≤ Instruction.maxOffset)
    (h : Patched level target bs
      (code.setIfInBounds b.pc (.asbx .jmp (joinClose b.close level) (target - b.pc - 1))) code') :
    Patched level target (b :: bs) code code' := by
  refine ⟨h.size.trans Array.size_setIfInBounds, fun pc hne => ?_, fun b' hb' => ?_⟩
  · rw [h.rest pc fun b' hb' => hne b' (List.mem_cons_of_mem b hb'),
      Array.getElem?_setIfInBounds_ne (hne b List.mem_cons_self)]
  · by_cases hlater : ∃ b'' ∈ bs, b''.pc = b'.pc
    · obtain ⟨b'', hb'', hsame⟩ := hlater
      obtain ⟨c, hc, hcpc, hjump⟩ := h.jumps b'' hb''
      rw [hsame] at hcpc hjump
      exact ⟨c, List.mem_cons_of_mem b hc, hcpc, hjump⟩
    · have hfirst : b' = b := by
        rcases List.mem_cons.mp hb' with heq | hmem
        · exact heq
        · exact absurd ⟨b', hmem, rfl⟩ hlater
      subst hfirst
      refine ⟨b', List.mem_cons_self, rfl, hoffset, ?_⟩
      rw [h.rest b'.pc fun c hc heq => hlater ⟨c, hc, heq⟩,
        Array.getElem?_setIfInBounds_self_of_lt hpc]

theorem offsetBetween_ensures (origin target : Nat) :
    Ensures False (offsetBetween origin target) w fun offset w' =>
      w' = w ∧ offset = w.draft.offset origin target ∧ offset.natAbs ≤ Instruction.maxOffset := by
  rw [offsetBetween, ensures_view_bind]
  split
  · next h => exact ⟨rfl, rfl, h⟩
  · rw [ensures_here_bind]
    split
    · exact (ensures_true _ w).bind fun _ _ _ => ensures_reject
    · exact ensures_misuse.mpr not_false

theorem setInstruction_ensures (pc : Nat) (i : Instruction) :
    Ensures False (setInstruction pc i) w fun _ w' =>
      pc < w.draft.pc ∧ w' = { w with draft := w.draft.setCode pc i } := by
  rw [setInstruction, ensures_here_bind]
  split
  · next h => exact ⟨h, rfl⟩
  · exact ensures_misuse.mpr not_false

theorem patchBreaks_ensures {target : Nat} (level : Nat) (bs : List OpenBreak)
    (htarget : target ≤ w.draft.pc) :
    Ensures False (patchBreaks level target bs) w fun _ w' =>
      (∃ code, w'.draft = { w.draft with code }) ∧
      Patched level target bs w.draft.code w'.draft.code := by
  induction bs generalizing w with
  | nil => exact ⟨⟨_, rfl⟩, .nil ..⟩
  | cons b rest ih =>
    -- one break first, whose position is one of the code, and then the rest
    have hfirst : Ensures False (patchBreak level target b) w fun _ w' =>
        b.pc < w.draft.pc ∧ (target - b.pc - 1 : Int).natAbs ≤ Instruction.maxOffset ∧
        w'.draft = w.draft.setCode b.pc
          (.asbx .jmp (joinClose b.close level) (target - b.pc - 1)) := by
      refine (offsetBetween_ensures b.pc target).bind fun offset w₁ h => ?_
      obtain ⟨rfl, hoffset, hreach⟩ := h
      refine (setInstruction_ensures b.pc _).bind fun _ w₂ h => ?_
      obtain ⟨hpc, rfl⟩ := h
      rw [Draft.offset_of_le (Nat.le_of_lt hpc) htarget] at hoffset
      rw [ensures_record]
      exact ⟨hpc, hoffset ▸ hreach, by rw [hoffset]⟩
    refine hfirst.bind fun _ w₁ h => ?_
    obtain ⟨hpc, hreach, hdraft⟩ := h
    have hsize : w₁.draft.pc = w.draft.pc := by
      rw [hdraft]
      exact Array.size_setIfInBounds
    refine (ih (hsize ▸ htarget)).mono fun _ w₂ h => ?_
    obtain ⟨⟨code, hcode⟩, hpatched⟩ := h
    refine ⟨⟨code, by rw [hcode, hdraft]; rfl⟩, .cons hpc hreach ?_⟩
    rw [hdraft] at hpatched
    exact hpatched

/-! ## Leaving a scope -/

theorem endLocals_ensures (endPc : Nat) (is : List Nat) :
    Ensures False (endLocals endPc is) w fun _ w' =>
      w'.draft.scopes = w.draft.scopes ∧ w'.draft.code = w.draft.code ∧
      w.draft.KeepsSlots w'.draft := by
  induction is generalizing w with
  | nil => exact ⟨rfl, rfl, .refl _⟩
  | cons i rest ih =>
    have hfirst : Ensures False (endLocal endPc i) w fun _ w' =>
        w'.draft.scopes = w.draft.scopes ∧ w'.draft.code = w.draft.code ∧
        w.draft.KeepsSlots w'.draft := by
      refine (localAt_ensures i).bind fun v w₁ h => ?_
      obtain ⟨hv, rfl⟩ := h
      have hslots : w₁.draft.KeepsSlots (w₁.draft.endLocal i v endPc) := by
        refine ⟨rfl, fun j u hu => ?_⟩
        by_cases hij : i = j
        · subst hij
          obtain rfl := Option.some.inj (hv.symm.trans hu)
          have hlt := (Array.getElem?_eq_some_iff.mp hv).1
          exact ⟨_, Array.getElem?_setIfInBounds_self_of_lt hlt, rfl⟩
        · exact ⟨u, (Array.getElem?_setIfInBounds_ne hij).trans hu, rfl⟩
      rw [ensures_update_bind]
      refine (giveBack_ensures (givesBack_release v.slot)).mono fun _ w₂ h => ?_
      obtain ⟨registers, hlimit, rfl⟩ := h
      exact ⟨rfl, rfl, hlimit, hslots.slots⟩
    refine hfirst.bind fun _ w₁ h => ih.mono fun _ w₂ h' => ?_
    exact ⟨h'.1.trans h.1, h'.2.1.trans h.2.1, h.2.2.trans h'.2.2⟩

/-- What leaving a scope makes of the breaks that are pending in it. -/
inductive Draft.Leaves (d : Draft) (level : Nat) (scope : Scope) (outer : List Scope) (d' : Draft) :
    Prop
  | loop {bs : List OpenBreak} (hbreaks : scope.breaks = some bs) (hscopes : d'.scopes = outer)
      (hcode : Patched level d.pc bs.reverse d.code d'.code)
  | block (hbreaks : scope.breaks = none)
      (hscopes : d'.scopes = Scope.raiseBreaks outer.length level outer) (hcode : d'.code = d.code)

/-- Leaving a scope, of which there may be none. -/
theorem closeScope_ensures (endPc : Nat) :
    Ensures False (closeScope endPc) w fun _ w' => w.draft.KeepsSlots w'.draft ∧
      match w.draft.scopes with
      | [] => w' = w
      | scope :: outer => ∃ level, closeLevel w = .ok level w ∧
          w.draft.Leaves level scope outer w'.draft := by
  have hlevel : Ensures False closeLevel w fun level w' => closeLevel w = .ok level w ∧ w' = w := by
    unfold Ensures
    cases hrun : closeLevel w with
    | ok level w₁ =>
      obtain rfl := closeLevel_ensures.of_ok hrun
      exact ⟨rfl, rfl⟩
    | error e w₁ => cases e <;> simp
  refine hlevel.bind fun level w₁ h => ?_
  obtain ⟨hlevel, rfl⟩ := h
  rw [ensures_view_bind]
  cases hscopes : w₁.draft.scopes with
  | nil => exact ⟨.refl _, rfl⟩
  | cons scope outer =>
    dsimp only
    cases hbreaks : scope.breaks with
    | some bs =>
      dsimp only
      rw [ensures_update_bind, ensures_here_bind]
      refine (patchBreaks_ensures level bs.reverse (Nat.le_refl _)).bind fun _ w₂ h => ?_
      obtain ⟨⟨code, hdraft⟩, hpatched⟩ := h
      refine (endLocals_ensures endPc scope.locals).bind fun _ w₃ h => ?_
      obtain ⟨hscopes', hcode', hslots⟩ := h
      rw [ensures_record]
      refine ⟨?_, level, hlevel, .loop hbreaks ?_ ?_⟩
      · rw [hdraft] at hslots
        exact ⟨hslots.limit, hslots.slots⟩
      · rw [hscopes', hdraft]
      · rw [hcode']
        exact hpatched
    | none =>
      dsimp only
      rw [ensures_update_bind]
      refine (endLocals_ensures endPc scope.locals).bind fun _ w₂ h => ?_
      obtain ⟨hscopes', hcode', hslots⟩ := h
      rw [ensures_record]
      exact ⟨⟨hslots.limit, hslots.slots⟩, level, hlevel, .block hbreaks hscopes' hcode'⟩

end LuaLowering
