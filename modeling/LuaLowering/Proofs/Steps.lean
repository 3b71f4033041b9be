import LuaLowering.Proofs.Shape.Expression
import LuaLowering.Proofs.Writing

/-!
# The builder's steps

One contract for each step that lowering is made of. A step that a chunk can
make fail rejects the chunk; that none of them is misused follows from the
builder's invariant and, where a count is involved, from the lists of the chunk
being short enough.
-/

namespace LuaLowering

open LowerM

variable {safe : Prop} {w : Workspace} {L : Site → Prop} {n pc target a : Nat} {S : Site}
  {op : Opcode} {m : Int} {holes : List Nat} {w₁ : Workspace}

/-! ## Registers and lines -/

section

variable (hw : w.Wf)

include hw

/-- A change of the registers in use, or of the line, writes nothing. -/
theorem loads_idle {r : Registers} {line : Nat} {events : Array Event}
    (hlimit : r.limit = w.draft.registers.limit) (hpeak : w.draft.registers.peak ≤ r.peak)
    (hheld : w.opened.length ≤ r.used) (hfits : r.used ≤ w.draft.registers.limit)
    (hL : ∀ S : Site, S.Ends { w with draft := { w.draft with registers := r, line }, events } →
      L S) : Loads [] w { w with draft := { w.draft with registers := r, line }, events } L := by
  have hdraft : w.draft.Steady w.draft.pc { w.draft with registers := r, line } :=
    { Draft.Steady.refl w.draft.pc w.draft with
      header := by rw [Draft.header, Draft.header, hlimit], peak := hpeak }
  have hsteady := Workspace.steady_of_draft events hdraft rfl
  exact .of_steady hsteady (hw.steady hsteady hheld hfits) fun S hS _ => hL S hS

theorem keepTaken_spec (n : Nat) :
    Ensures safe (keepTaken (w.draft.registers.takeRun? n)) w fun r w' =>
      r = w.used ∧ w'.used = w.used + n ∧ w'.mark = w.mark ∧
        Loads [] w w' fun S => S.Room (w.used + n) := by
  unfold Registers.takeRun?
  split
  · next hroom =>
    refine ⟨rfl, rfl, rfl, loads_idle hw rfl (Nat.le_max_left _ _) ?_ hroom fun S hS => ⟨?_, ?_⟩⟩
    · exact Nat.le_trans hw.held (Nat.le_add_right _ _)
    · rw [hS.options, ← hw.limit]
      exact hroom
    · exact Nat.le_trans (Nat.le_max_right _ _) hS.draft.peak
  · trivial

theorem takeRegister_spec :
    Ensures safe takeRegister w fun r w' =>
      r = w.used ∧ w'.used = w.used + 1 ∧ w'.mark = w.mark ∧
        Loads [] w w' fun S => S.Room (w.used + 1) :=
  keepTaken_spec hw 1

theorem takeRegisters_spec (hn : safe → n < 0x80000000) :
    Ensures safe (takeRegisters n) w fun r w' =>
      r = w.used ∧ w'.used = w.used + n ∧ w'.mark = w.mark ∧
        Loads [] w w' fun S => S.Room (w.used + n) := by
  unfold takeRegisters
  rw [ensures_view_bind, Registers.takeRun]
  split
  · next taken htaken =>
    split at htaken
    · cases htaken
      exact keepTaken_spec hw n
    · cases htaken
  · next how herr =>
    rw [ensures_misuse]
    intro hsafe
    split at herr
    · cases herr
    · next hfits =>
      have hlt := hn hsafe
      have hused := hw.draft.fits
      have hlim := hw.limit
      have hsmall := hw.small
      simp only [Word.fits, decide_eq_true_eq] at hfits
      unfold frameRegisters at hsmall
      omega

theorem giveBack_spec {f : Registers → Except Misuse Registers}
    (hf : f w.draft.registers = .ok { w.draft.registers with used := n })
    (hheld : w.opened.length ≤ n) (hn : n ≤ w.used) :
    Ensures safe (giveBack f) w fun _ w' =>
      w'.used = n ∧ w'.mark = w.mark ∧ Loads [] w w' fun _ => True := by
  unfold giveBack
  rw [ensures_view_bind, hf]
  exact ⟨rfl, rfl, loads_idle hw rfl le_rfl hheld (Nat.le_trans hn hw.draft.fits)
    fun _ _ => trivial⟩

theorem freeRegisters_spec (hn : w.opened.length + n ≤ w.used) :
    Ensures safe (freeRegisters n) w fun _ w' =>
      w'.used = w.used - n ∧ w'.mark = w.mark ∧ Loads [] w w' fun _ => True :=
  giveBack_spec hw (by rw [Registers.free, if_pos (show n ≤ w.used by omega)]) (by omega) (by omega)

theorem freeRegister_spec (hn : w.opened.length < w.used) :
    Ensures safe freeRegister w fun _ w' =>
      w'.used = w.used - 1 ∧ w'.mark = w.mark ∧ Loads [] w w' fun _ => True :=
  freeRegisters_spec hw hn

theorem freeRegistersTo_spec {mark : Nat} (hheld : w.opened.length ≤ mark) (hmark : mark ≤ w.used) :
    Ensures safe (freeRegistersTo mark) w fun _ w' =>
      w'.used = mark ∧ w'.mark = w.mark ∧ Loads [] w w' fun _ => True :=
  giveBack_spec hw (by rw [Registers.freeTo, if_pos hmark]) hheld hmark

theorem setLine_spec (line : Nat) :
    Ensures safe (setLine line) w fun _ w' =>
      w'.used = w.used ∧ w'.mark = w.mark ∧ Loads [] w w' fun _ => True :=
  ⟨rfl, rfl, loads_idle hw rfl le_rfl hw.held hw.draft.fits fun _ _ => trivial⟩

end

/-! ## Code and constants -/

theorem Draft.Steady.emit (d : Draft) (line : Nat) (i : Instruction) :
    d.Steady d.pc (d.emit line i) :=
  { Draft.Steady.refl d.pc d with
    pc := by rw [Draft.emit, Draft.pc, Draft.pc, Array.size_push]; omega
    code := fun j hj => by
      have hlt : j < d.code.size := hj
      rw [Draft.emit, Array.getElem?_push_lt hlt, Array.getElem?_eq_getElem hlt] }

theorem Site.Settled.has {w' : Workspace} (h : S.Settled [] w w') {i : Instruction}
    (hlo : w.draft.pc ≤ pc) (hcode : w'.draft.code[pc]? = some i) : S.Has pc i := by
  rw [Site.Has, h pc hlo (Array.getElem?_eq_some_iff.mp hcode).1 List.not_mem_nil, hcode]

/-! ### Operands and their fields -/

/-- A number fits into the wider fields, if the constants that an instruction may name do. -/
def Site.Wide (S : Site) (n : Nat) : Prop := S.options.constantLimit ≤ operandConstants → n < 0x200

theorem Site.Wide.of_narrow (h : n < 0x100) : S.Wide n := fun _ => Nat.lt_trans h (by decide)

theorem Site.Wide.zero : S.Wide 0 := .of_narrow (by decide)

theorem Site.keeps_abc {b c : Nat} (ha : a < 0x100) (hb : S.Wide b) (hc : S.Wide c) :
    S.Keeps (.abc op a b c) := by
  refine fun h => ⟨Instruction.opcode?_abc .., ?_, ?_, ?_⟩
  · rw [Request.word, Instruction.a_abc, Nat.mod_eq_of_lt ha]
  · rw [Request.word, Instruction.b_abc, Nat.mod_eq_of_lt (hb h)]
  · rw [Request.word, Instruction.c_abc, Nat.mod_eq_of_lt (hc h), ite_self]

/-- The number of a batch may be cut. -/
theorem Site.keeps_setList {b c : Nat} (ha : a < 0x100) (hb : S.Wide b) :
    S.Keeps (.abc .setList a b c) := by
  refine fun h => ⟨Instruction.opcode?_abc .., ?_, ?_, Instruction.c_abc ..⟩
  · rw [Request.word, Instruction.a_abc, Nat.mod_eq_of_lt ha]
  · rw [Request.word, Instruction.b_abc, Nat.mod_eq_of_lt (hb h)]

theorem Site.keeps_abx {bx : Nat} (ha : a < 0x100) (hbx : bx ≤ Instruction.maxBx ∨ op = .closure) :
    S.Keeps (.abx op a bx) := by
  refine fun _ => ⟨Instruction.opcode?_abx .., ?_, ?_⟩
  · rw [Request.word, Instruction.a_abx, Nat.mod_eq_of_lt ha]
  · rw [Request.word, Instruction.bx_abx]
    split
    · rfl
    · next hop => exact Nat.mod_eq_of_lt (Nat.lt_succ_of_le (hbx.resolve_right hop))

theorem Site.keeps_asbx (ha : a < 0x100) (hn : m.natAbs ≤ Instruction.maxOffset) :
    S.Keeps (.asbx op a m) := by
  refine fun _ => ⟨Instruction.opcode?_asbx .., ?_, Instruction.offset_asbx op a hn⟩
  rw [Request.word, Instruction.a_asbx, Nat.mod_eq_of_lt ha]

theorem emit_written (hw : w.Wf) (line : Nat) (r : Request) :
    Ensures safe (emit line r.word) w fun pc w' =>
      pc = w.draft.pc ∧ w'.used = w.used ∧ w'.mark = w.mark.next ∧
        w'.draft.code[w.draft.pc]? = some r.word ∧
        Loads [] w w' fun S => S.Keeps r → S.Writes r w.mark w.mark.next := by
  unfold LuaLowering.emit
  rw [ensures_here_bind, ensures_update_bind, ensures_pure]
  have hsteady := Workspace.steady_of_draft w.events (Draft.Steady.emit w.draft line r.word) rfl
  have hlast : (w.draft.emit line r.word).code[w.draft.pc]? = some r.word :=
    Array.getElem?_push_size
  refine ⟨rfl, rfl, ?_, hlast, .of_steady hsteady (hw.steady hsteady hw.held hw.draft.fits)
    fun S _ hset hr => ⟨hset.has le_rfl hlast, rfl, hr⟩⟩
  show Mark.mk (w.draft.emit line r.word).pc _ = _
  rw [Draft.emit, Draft.pc, Array.size_push]
  rfl

/-- An instruction whose position is not needed. -/
theorem emit_spec (hw : w.Wf) (line : Nat) (r : Request) :
    Ensures safe (do let _ ← emit line r.word) w fun _ w' =>
      w'.used = w.used ∧ w'.mark = w.mark.next ∧
        Loads [] w w' fun S => S.Keeps r → S.Writes r w.mark w'.mark := by
  refine (emit_written hw line r).bind fun _ w' => ?_
  rintro ⟨-, hused, hmark, -, hload⟩
  rw [ensures_pure, hmark]
  exact ⟨hused, rfl, hload⟩

/-- Writing an instruction does not touch the locals. -/
theorem emit_locals (line : Nat) (i : Instruction) :
    Ensures safe (emit line i) w fun _ w' => w'.draft.locals = w.draft.locals := rfl

/-- An instruction that will be replaced leaves a hole. -/
theorem emit_hole (hw : w.Wf) (line : Nat) (r : Request) :
    Ensures safe (emit line r.word) w fun pc w' =>
      pc = w.draft.pc ∧ w'.used = w.used ∧ w'.mark = w.mark.next ∧
        w'.draft.code[w.draft.pc]? = some r.word ∧ Loads [w.draft.pc] w w' fun _ => True := by
  refine (emit_written hw line r).mono fun _ w' => ?_
  rintro ⟨hpc, hused, hmark, hcode, hload⟩
  refine ⟨hpc, hused, hmark, hcode, hload.punch fun j hj => ?_⟩
  obtain rfl := List.mem_singleton.mp hj
  exact ⟨le_rfl, (Array.getElem?_eq_some_iff.mp hcode).1⟩

theorem plain_spec (hw : w.Wf) (line : Nat) (op : Opcode) (a b c : Nat) :
    Ensures safe (Emit.plain line op a b c) w fun _ w' =>
      w'.used = w.used ∧ w'.mark = w.mark.next ∧
        Loads [] w w' fun S => S.Keeps (.abc op a b c) → S.Writes (.abc op a b c) w.mark w'.mark :=
  emit_spec hw line (.abc op a b c)

theorem plain_locals (line : Nat) (op : Opcode) (a b c : Nat) :
    Ensures safe (Emit.plain line op a b c) w fun _ w' => w'.draft.locals = w.draft.locals := rfl

/-- The offset between two positions of the code. -/
theorem offsetBetween_spec {origin : Nat} (ho : origin ≤ w.draft.pc) (ht : target ≤ w.draft.pc) :
    Ensures safe (offsetBetween origin target) w fun n w' =>
      w' = w ∧ n = (target : Int) - origin - 1 ∧ n.natAbs ≤ Instruction.maxOffset := by
  unfold offsetBetween
  rw [ensures_view_bind, Draft.offset_of_le ho ht]
  split
  · next hfar => exact ⟨rfl, rfl, hfar⟩
  · rw [ensures_here_bind, if_pos (Or.inl (Nat.max_le.mpr ⟨ho, ht⟩)), ensures_currentLine_bind]
    exact ensures_reject

theorem canBias_of_le {n : Int} (hn : n.natAbs ≤ Instruction.maxOffset) :
    Instruction.canBias n = true := by
  have hm : Instruction.maxOffset = 0x1ffff := rfl
  rw [Instruction.canBias, decide_eq_true_eq]
  omega

/-- A jump backwards, whose target is known. -/
theorem jumpBack_spec (hw : w.Wf) (line : Nat) (op : Opcode) (ha : a < 0x100)
    (ht : target ≤ w.draft.pc) :
    Ensures safe (do let back ← offsetFromHere target; Emit.asbx line op a back) w
      fun _ w' => w'.used = w.used ∧ w'.mark = w.mark.next ∧
        w'.draft.locals = w.draft.locals ∧
        Loads [] w w' fun S => S.Jumps op w.draft.pc a target := by
  unfold offsetFromHere
  rw [bind_assoc, ensures_here_bind]
  refine (offsetBetween_spec le_rfl ht).bind fun n w' => ?_
  rintro ⟨rfl, rfl, hfar⟩
  rw [Emit.asbx, if_pos (canBias_of_le hfar)]
  refine ((emit_written hw line (.asbx op a _)).and (emit_locals line _)).mono fun _ w₁ => ?_
  rintro ⟨⟨-, hused, hmark, -, hload⟩, hlocals⟩
  refine ⟨hused, hmark, hlocals, hload.mono fun S _ hcode => ?_⟩
  obtain ⟨hhas, -, hkeeps⟩ := hcode (Site.keeps_asbx ha hfar)
  exact ⟨hfar, hhas, hkeeps⟩

/-- A jump forwards, to be aimed when its target is reached. -/
theorem asbx_hole (hw : w.Wf) (line : Nat) (op : Opcode) (a : Nat) :
    Ensures safe (Emit.asbx line op a 0) w fun pc w' =>
      pc = w.draft.pc ∧ w'.used = w.used ∧ w'.mark = w.mark.next ∧
        w'.draft.code[w.draft.pc]? = some (.asbx op a 0) ∧
        Loads [w.draft.pc] w w' fun _ => True := by
  rw [Emit.asbx, if_pos (canBias_of_le (Nat.zero_le _))]
  exact emit_hole hw line (.asbx op a 0)

theorem asbx_locals (line : Nat) (op : Opcode) (a : Nat) :
    Ensures safe (Emit.asbx line op a 0) w fun _ w' => w'.draft.locals = w.draft.locals := by
  rw [Emit.asbx, if_pos (canBias_of_le (Nat.zero_le _))]
  exact emit_locals line _

/-! ## Aiming jumps -/

/-- The workspace after the instruction at a position was replaced. -/
def Workspace.patched (w : Workspace) (pc : Nat) (i : Instruction) (events : Array Event) :
    Workspace := { w with draft := w.draft.setCode pc i, events }

theorem Workspace.steady_patched (w : Workspace) (pc : Nat) (i : Instruction)
    (events : Array Event) : w.Steady 0 (w.patched pc i events) :=
  steady_of_draft events
    { Draft.Steady.refl 0 w.draft with
      pc := Nat.le_of_eq (by rw [Draft.setCode, Draft.pc, Draft.pc, Array.size_setIfInBounds])
      code := fun _ h => (Nat.not_lt_zero _ h).elim } rfl

theorem Workspace.wf_patched (hw : w.Wf) (pc : Nat) (i : Instruction) (events : Array Event) :
    (w.patched pc i events).Wf :=
  hw.steady (w.steady_patched pc i events) hw.held hw.draft.fits

@[simp] theorem Workspace.mark_patched (w : Workspace) (pc : Nat) (i : Instruction)
    (events : Array Event) : (w.patched pc i events).mark = w.mark := by
  rw [mark, mark, patched, Draft.setCode, Draft.pc, Draft.pc, Array.size_setIfInBounds]

/-- Only the code was patched. -/
structure Recoded (w w' : Workspace) : Prop where
  rest : w' = { w with draft := { w.draft with code := w'.draft.code }, events := w'.events }
  pc : w'.draft.pc = w.draft.pc

namespace Recoded

variable {w' w₁ w₂ : Workspace}

theorem refl (w : Workspace) : Recoded w w := ⟨rfl, rfl⟩

theorem patched (w : Workspace) (pc : Nat) (i : Instruction) (events : Array Event) :
    Recoded w (w.patched pc i events) := ⟨rfl, congrArg Mark.pc (w.mark_patched pc i events)⟩

theorem trans (h₁ : Recoded w w₁) (h₂ : Recoded w₁ w₂) : Recoded w w₂ :=
  ⟨by rw [h₂.rest, h₁.rest], h₂.pc.trans h₁.pc⟩

theorem scopes (h : Recoded w w') : w'.draft.scopes = w.draft.scopes := by rw [h.rest]

theorem locals (h : Recoded w w') : w'.draft.locals = w.draft.locals := by rw [h.rest]

theorem used (h : Recoded w w') : w'.used = w.used := by rw [h.rest]

theorem opened (h : Recoded w w') : w'.opened = w.opened := by rw [h.rest]; rfl

theorem mark (h : Recoded w w') : w'.mark = w.mark := by
  have hnested : w'.draft.nested = w.draft.nested := by rw [h.rest]
  rw [Workspace.mark, h.pc, hnested, Workspace.mark]

end Recoded

theorem replace_spec (hpc : pc < w.draft.pc) (i : Instruction) (e : Event) :
    Ensures safe (do setInstruction pc i; record e) w fun _ w' =>
      ∃ events, w' = w.patched pc i events := by
  rw [setInstruction, bind_assoc, ensures_here_bind, if_pos hpc, ensures_update_bind,
    ensures_record]
  exact ⟨_, rfl⟩

theorem aimJump_spec (ht : target ≤ w.draft.pc) (hcode : w.draft.code[pc]? = some (.asbx op a m)) :
    Ensures safe (aimJump pc target) w fun _ w' =>
      ∃ events, w' = w.patched pc (.asbx op a ((target : Int) - pc - 1)) events ∧
        ((target : Int) - pc - 1).natAbs ≤ Instruction.maxOffset := by
  have hpc : pc < w.draft.pc := (Array.getElem?_eq_some_iff.mp hcode).1
  unfold aimJump
  refine (offsetBetween_spec (Nat.le_of_lt hpc) ht).bind fun n w' => ?_
  rintro ⟨rfl, rfl, hfar⟩
  rw [ensures_view_bind, hcode]
  refine (replace_spec hpc _ _).mono fun _ w' => ?_
  rintro ⟨events, rfl⟩
  exact ⟨events, by rw [Instruction.withOffset_asbx], hfar⟩

theorem patchBreak_spec {close : Nat} {b : OpenBreak} (hb : b.pc < w.draft.pc)
    (ht : target ≤ w.draft.pc) :
    Ensures safe (patchBreak close target b) w fun _ w' =>
      ∃ events, w' = w.patched b.pc
          (.asbx .jmp (joinClose b.close close) ((target : Int) - b.pc - 1)) events ∧
        ((target : Int) - b.pc - 1).natAbs ≤ Instruction.maxOffset := by
  unfold patchBreak
  refine (offsetBetween_spec (Nat.le_of_lt hb) ht).bind fun n w' => ?_
  rintro ⟨rfl, rfl, hfar⟩
  refine (replace_spec hb _ _).mono fun _ w' => ?_
  rintro ⟨events, rfl⟩
  exact ⟨events, rfl, hfar⟩

/-- A jump that is aimed fills its hole. -/
theorem Wrote.aim (h : Wrote (pc :: holes) w w₁ L) (op : Opcode) (a : Nat) (hp : pc ∉ holes)
    (hfar : ((target : Int) - pc - 1).natAbs ≤ Instruction.maxOffset) (events : Array Event) :
    Wrote holes w (w₁.patched pc (.asbx op a ((target : Int) - pc - 1)) events)
      fun S => L S ∧ (a < 0x100 → S.Jumps op pc a target) :=
  (h.fill hp (w₁.steady_patched _ _ _).continues (Workspace.wf_patched h.wf _ _ _) rfl).mono
    fun _ _ ⟨hL, hcode⟩ => ⟨hL, fun ha => ⟨hfar, hcode, Site.keeps_asbx ha hfar⟩⟩

theorem aimJump_wrote {w₀ : Workspace} (h : Wrote (pc :: holes) w₀ w L) (hp : pc ∉ holes)
    (hcode : w.draft.code[pc]? = some (.asbx op a m)) (ha : a < 0x100) (ht : target ≤ w.draft.pc) :
    Ensures safe (aimJump pc target) w fun _ w' =>
      Recoded w w' ∧ (∀ q, q ≠ pc → w'.draft.code[q]? = w.draft.code[q]?) ∧
        Wrote holes w₀ w' fun S => L S ∧ S.Jumps op pc a target := by
  refine (aimJump_spec ht hcode).mono fun _ w' => ?_
  rintro ⟨events, rfl, hfar⟩
  exact ⟨.patched _ _ _ _, fun q hq => Array.getElem?_setIfInBounds_ne hq.symm,
    (h.aim op a hp hfar events).mono fun _ _ h => ⟨h.1, h.2 ha⟩⟩

theorem Recoded.loads {w₂ : Workspace} {L' : Site → Prop} (h : Recoded w₁ w₂)
    (hl : Loads holes w w₁ L) {holes' : List Nat} (hwrote : Wrote holes' w w₂ L') :
    Loads holes' w w₂ L' :=
  ⟨hwrote, h.scopes.trans hl.scopes, (congrArg Array.size h.locals).trans hl.size⟩

/-! ## Constants -/

/-- The index of a constant is that of the first entry that serves for it. -/
theorem constantIndex_spec (hw : w.Wf) (k : Constant) :
    Ensures safe (constantIndex k) w fun i w' =>
      w'.used = w.used ∧ w'.mark = w.mark ∧
        (∀ j c, w.draft.constants[j]? = some c → c.same k = true → i ≤ j) ∧
        (∃ c, w'.draft.constants[i]? = some c ∧ (c = k ∨ c.same k = true)) ∧
        Loads [] w w' fun S => S.Pool i k := by
  unfold constantIndex
  rw [ensures_view_bind]
  split
  · next i hidx =>
    obtain ⟨hlt, hsame, hfirst⟩ := List.findIdx?_eq_some_iff_getElem.mp hidx
    have hentry : w.draft.constants[i]? = some w.draft.constants.toList[i] := by
      rw [← Array.getElem?_toList, List.getElem?_eq_getElem hlt]
    refine ⟨rfl, rfl, fun j c hc hsame' => ?_, ⟨_, hentry, Or.inr hsame⟩,
      (Loads.refl hw).mono fun S hS _ => ⟨_, hS.draft.constants _ _ hentry, Or.inr hsame⟩⟩
    by_contra hlt'
    have hj : j < i := by omega
    have hc' : w.draft.constants.toList[j] = c := by
      have := Array.getElem?_eq_some_iff.mp hc
      simpa using this.2
    have hno := hfirst j hj
    rw [hc'] at hno
    exact hno hsame'
  · next hidx =>
    rw [ensures_view_bind, ensures_update_bind, ensures_pure]
    have hdraft : w.draft.Steady w.draft.pc
        { w.draft with constants := w.draft.constants.push k } :=
      { Draft.Steady.refl w.draft.pc w.draft with constants := .push _ _ }
    have hsteady := Workspace.steady_of_draft w.events hdraft rfl
    have hlast : (w.draft.constants.push k)[w.draft.constants.size]? = some k :=
      Array.getElem?_push_size
    refine ⟨rfl, rfl, fun j c hc hsame => ?_, ⟨k, hlast, Or.inl rfl⟩,
      .of_steady hsteady (hw.steady hsteady hw.held hw.draft.fits)
        fun S hS _ => ⟨k, hS.draft.constants _ _ hlast, Or.inl rfl⟩⟩
    have hno := List.findIdx?_eq_none_iff.mp hidx c
      (Array.mem_toList_iff.mpr (Array.mem_of_getElem? hc))
    rw [hsame] at hno
    cases hno

theorem loadConstant_spec (hw : w.Wf) (line : Nat) (ha : a < 0x100) (k : Constant) :
    Ensures safe (Emit.loadConstant line a k) w fun _ w' =>
      w'.used = w.used ∧ Loads [] w w' fun S => ConstantIs S k a w.mark w'.mark := by
  unfold Emit.loadConstant
  refine (constantIndex_spec hw k).bind fun i w₁ => ?_
  rintro ⟨hused₁, hmark₁, -, -, hload₁⟩
  split
  · next hi =>
    refine (emit_spec hload₁.wf line (.abx .loadK a i)).mono fun _ w₂ => ?_
    rintro ⟨hused₂, hmark₂, hload₂⟩
    refine ⟨hused₂.trans hused₁, (hload₁.trans hload₂).mono fun S _ ⟨hpool, hcode⟩ => ?_⟩
    exact ⟨i, hpool, Or.inl ⟨hi, hmark₁ ▸ hcode (Site.keeps_abx ha (Or.inl hi))⟩⟩
  · next hi =>
    refine (emit_written hload₁.wf line (.abx .loadKx a 0)).bind fun _ w₂ => ?_
    rintro ⟨-, hused₂, hmark₂, -, hload₂⟩
    refine (emit_spec hload₂.wf line (.ax .extraArg i)).mono fun _ w₃ => ?_
    rintro ⟨hused₃, hmark₃, hload₃⟩
    refine ⟨hused₃.trans (hused₂.trans hused₁),
      ((hload₁.trans hload₂).trans hload₃).mono fun S _ ⟨⟨hpool, hcode₂⟩, hcode₃⟩ => ?_⟩
    rw [hmark₁] at hcode₂
    rw [hmark₂, hmark₁] at hcode₃
    exact ⟨i, hpool, Or.inr ⟨by omega, hcode₂ (Site.keeps_abx ha (Or.inl (Nat.zero_le _))),
      hcode₃ fun _ => ⟨Instruction.opcode?_ax .., Instruction.axField_ax ..⟩⟩⟩

/-! ## Names -/

section

variable (hw : w.Wf)

include hw

/-- What a local name stands for now, it stands for in the finished function. -/
theorem slotOf?_spec (x : String) :
    Ensures safe (slotOf? x) w fun r w' => w' = w ∧ ∀ S : Site, S.Ends w →
      match r with
      | some slot => ∃ v, S.local? w.opened x = some v ∧ v.slot = slot
      | none => S.local? w.opened x = none := by
  unfold slotOf?
  rw [ensures_view_bind]
  split
  · next i hx =>
    have hlatest : w.draft.latest? x w.opened = some i := by
      rw [← hw.draft.tracks.visible x, hx]
    obtain ⟨v, hv, -, -⟩ := hw.draft.tracks.stacked.latest?_local hlatest
    rw [localAt, bind_assoc, ensures_view_bind, hv]
    refine ⟨rfl, fun S hS => ?_⟩
    obtain ⟨v', hv', hdecl, -⟩ :=
      Frame.local?_of_visible (F := ⟨S.draft, w.opened⟩) hw.draft hS.draft rfl hx hv
    exact ⟨v', hv', (congrArg Local.slot hdecl :)⟩
  · next hx =>
    exact ⟨rfl, fun S hS =>
      Frame.local?_of_not_visible (F := ⟨S.draft, w.opened⟩) hw.draft hS.draft rfl hx⟩

/-- The registers that there is room for fit into every field. -/
theorem Site.Ends.room_le (hS : S.Ends w) (h : S.Room n) : n ≤ frameRegisters :=
  Nat.le_trans (hS.options ▸ h.1) hw.small

/-- The registers of locals fit into every field. -/
theorem Site.Ends.local_lt {x : String} {v : Local} (hS : S.Ends w)
    (h : S.local? w.opened x = some v) : v.slot < 0x100 := by
  cases hx : w.draft.visible.find? x with
  | none =>
    have hnone := Frame.local?_of_not_visible (F := ⟨S.draft, w.opened⟩) hw.draft hS.draft rfl hx
    rw [Site.local?, hnone] at h
    cases h
  | some i =>
    have hlatest : w.draft.latest? x w.opened = some i := by
      rw [← hw.draft.tracks.visible x, hx]
    obtain ⟨u, hu, -, hlt⟩ := hw.draft.tracks.stacked.latest?_local hlatest
    obtain ⟨v', hv', hdecl, -⟩ :=
      Frame.local?_of_visible (F := ⟨S.draft, w.opened⟩) hw.draft hS.draft rfl hx hu
    obtain rfl := Option.some.inj (h.symm.trans hv')
    have hslot : v.slot = u.slot := (congrArg Local.slot hdecl :)
    have hheld := hw.draft.held
    have hmax : w.draft.registers.used ≤ 255 := hw.used_le
    omega

theorem Site.unknown_of_missing {x : String} (hS : S.Ends w)
    (hmiss : ∀ e ∈ w.enclosing, e.visible.find? x = none)
    (hbase : ∀ c ∈ (outermost w.draft w.enclosing).upvalues, c.name ≠ x) : S.Unknown x := by
  refine ⟨fun F hF => ?_, hS.base ▸ hbase⟩
  obtain ⟨i, hi, rfl⟩ := List.mem_iff_getElem.mp hF
  have hi' : i < w.enclosing.length := by rw [hS.outer.length_eq]; exact hi
  have hmem := List.getElem_mem hi'
  obtain ⟨hbecomes, hopened⟩ := List.Forall₂.get hS.outer hi' hi
  exact Frame.local?_of_not_visible (hw.enclosing _ hmem).1 hbecomes hopened (hmiss _ hmem)

/-- What an outer name stands for, or that nothing further out has that name. -/
theorem upvalueOf?_spec (x : String) :
    Ensures safe (upvalueOf? x) w fun r w' =>
      w'.used = w.used ∧ w'.mark = w.mark ∧ Loads [] w w' fun S =>
        match r with
        | some u => S.Upvalue u x
        | none => S.Unknown x := by
  have hsound := resolve_sound x hw.captures fun e he => (hw.enclosing e he).1.tracks
  have hrest := hsound.draft.rest
  have hregs : (w.draft.resolve x w.enclosing).draft.registers = w.draft.registers := by rw [hrest]
  have hsteady : w.Steady w.draft.pc { w with
      draft := (w.draft.resolve x w.enclosing).draft
      enclosing := (w.draft.resolve x w.enclosing).enclosing } :=
    ⟨rfl, hsound.draft.steady _, hsound.around, fun _ => hsound.captures, hsound.base⟩
  have hwf := hw.steady hsteady (hregs ▸ hw.held) (hregs ▸ hw.draft.fits)
  unfold Ensures upvalueOf?
  dsimp only
  cases hidx : (w.draft.resolve x w.enclosing).index with
  | ok r =>
    refine ⟨congrArg Registers.used hregs, ?_, .of_steady hsteady hwf fun S hS _ => ?_⟩
    · show Mark.mk _ _ = Mark.mk _ _
      rw [hrest]
      rfl
    · cases r with
      | some u =>
        obtain ⟨c, hc, rfl⟩ := hsound.found u hidx
        have hlt : u < (w.draft.resolve c.name w.enclosing).draft.upvalues.size :=
          (Array.getElem?_eq_some_iff.mp hc).1
        have hmax := hwf.draft.upvalues
        refine ⟨Nat.lt_of_lt_of_le hlt hmax, ?_⟩
        exact denotes_of_captures hS.outer hwf.captures (fun e he => (hwf.enclosing e he).1)
          hS.draft.upvalues hc
      | none =>
        obtain ⟨hmiss, hbase⟩ := hsound.missing hidx
        exact Site.unknown_of_missing hw (hS.back hsteady.continues) hmiss hbase
  | error e =>
    cases e with
    | rejected why => trivial
    | misused how => exact absurd hidx (hsound.contract how)

theorem globalsOperand_spec :
    Ensures safe globalsOperand w fun o w' =>
      w'.used = w.used ∧ w'.mark = w.mark ∧ Loads [] w w' fun S => GlobalsAre S w.opened o := by
  unfold globalsOperand
  refine (slotOf?_spec hw "_ENV").bind fun r w' => ?_
  rintro ⟨rfl, hslot⟩
  cases r with
  | some r =>
    refine ⟨rfl, rfl, (Loads.refl hw).mono fun S hS _ => ?_⟩
    obtain ⟨v, hv, rfl⟩ := hslot S hS
    exact .register hv
  | none =>
    refine (upvalueOf?_spec hw "_ENV").bind fun u w₁ => ?_
    rintro ⟨hused, hmark, hload⟩
    cases u with
    | some u =>
      exact ⟨hused, hmark, hload.mono fun S hS hup =>
        .upvalue (hslot S (hS.back hload.continues)) hup⟩
    | none => trivial

end

end LuaLowering
