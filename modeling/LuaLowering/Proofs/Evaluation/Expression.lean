import LuaLowering.Proofs.Shape.Expression
import LuaLowering.Proofs.Evaluation.Operands

/-!
# The code of expressions evaluates them

For each kind of simple expression, given that its parts are computed. Temporaries go
above the registers in use, and the target register is written last. That is why an
expression may be loaded into a register that it reads itself.
-/

namespace LuaLowering

open LowerM

variable {V H : Type} {I : Interpretation V H} {σ : Scene V H} {w w₁ w₂ w' : Workspace}
  {a : Nat} {f g : Environment V H → Option V} {x y : Operand} {kinds kinds' : OperandKinds}
  {regs : Nat → V} {l r v : V} {pc used : Nat} {t k : Operand} {e : Expr} {left right : Source}
  {sources : List Source}

/-- Two operands, the second of which is supplied after the first. -/
theorem Workspace.Provides.both (hw : w.Ready) (hx : w.Provides I f kinds x w₁)
    (hy : w₁.Provides I g kinds' y w₂) (hh : σ.Hosts w.draft.pc w₂)
    (hl : f (σ.environment w regs) = some l) (hr : g (σ.environment w regs) = some r) :
    ∃ regs', σ.Runs I w.draft.pc regs w₂.draft.pc regs' ∧ x.Denotes I σ regs' w₂.used l ∧
      y.Denotes I σ regs' w₂.used r ∧ ∀ q < w.used, regs' q = regs q := by
  obtain ⟨regs₁, hrun₁, hdenotes₁, hkeep₁⟩ := hx.supplies (hh.before hy.grows) hl
  have henv : σ.environment w₁ regs₁ = σ.environment w regs :=
    Scene.environment_congr hw hx.grows hkeep₁
  obtain ⟨regs₂, hrun₂, hdenotes₂, hkeep₂⟩ := hy.supplies (hh.after hx.grows.pc) (henv ▸ hr)
  refine ⟨regs₂, hrun₁.trans hrun₂, hdenotes₁.keep hkeep₂ hy.used, hdenotes₂, fun q hq => ?_⟩
  exact (hkeep₂ q (Nat.lt_of_lt_of_le hq hx.used)).trans (hkeep₁ q hq)

/-- Setting one register is enough. -/
theorem Scene.Runs.exists_of_update {regs₁ : Nat → V} {pc₁ pc₂ : Nat}
    (h : σ.Runs I pc regs pc₁ regs₁) (hkeep : ∀ r < used, regs₁ r = regs r)
    (hset : σ.Runs I pc₁ regs₁ pc₂ (Function.update regs₁ a v)) :
    ∃ regs', σ.Runs I pc regs pc₂ regs' ∧ regs' a = v ∧ ∀ r < used, r ≠ a → regs' r = regs r :=
  ⟨_, h.trans hset, Function.update_self _ _ _,
    fun r hr hne => (Function.update_of_ne hne _ _).trans (hkeep r hr)⟩

/-! ## Fields and names -/

theorem getField_writes (line : Nat) (t k : Operand) :
    Ensures False (getField line a t k) w fun _ w' =>
      w.Writes [(fieldRead a t k).word] w' ∧ w'.used = w.used := by
  cases t <;> exact plain_writes line _ _ _ _

theorem Scene.Has.fieldRead (h : σ.Has pc (fieldRead a t k).word) (ha : a < 0x100)
    (hused : used ≤ 0x100)
    (ht : t.Denotes I σ regs used l) (hk : k.Denotes I σ regs used r)
    (htable : OperandKinds.registerOrUpvalue.allows t = true)
    (hkey : OperandKinds.registerOrConstant.allows k = true) (hv : I.index σ.heap l r = some v) :
    σ.Runs I pc regs (pc + 1) (Function.update regs a v) := by
  cases t with
  | register t => exact h.getTable ha hused ht hk hkey hv
  | constant => cases htable
  | upvalue u => exact h.getTabUp ha hused ht hk hkey hv

/-- A field is read once table and key are in place. -/
theorem getField_evaluates (line : Nat) (hw : w.Ready) (ha : a < w.used)
    (ht : w.Provides I f .registerOrUpvalue t w₁) (hk : w₁.Provides I g .registerOrConstant k w₂) :
    Ensures False (do freeRegistersTo w.used; getField line a t k) w₂ fun _ w' =>
      w.Delivers I (fun ρ => do I.index ρ.heap (← f ρ) (← g ρ)) a w' := by
  refine (freeRegistersTo_writes w.used).bind fun _ w₃ h => ?_
  obtain ⟨hfree, hused₃, -⟩ := h
  refine (getField_writes line t k).mono fun _ w₄ h => ?_
  obtain ⟨hread, hused₄⟩ := h
  have hgrows : w.Grows w₂ := ht.grows.trans hk.grows
  have hwrites : w₂.Writes [(fieldRead a t k).word] w₄ := hfree.append hread
  refine ⟨hgrows.trans hwrites.grows, hused₄.trans hused₃, fun σ regs v hh hv => ?_⟩
  obtain ⟨l, hl, hv⟩ := Option.bind_eq_some_iff.mp hv
  obtain ⟨r, hr, hv⟩ := Option.bind_eq_some_iff.mp hv
  obtain ⟨regs₂, hrun, hdenotes, hdenotes', hkeep⟩ :=
    ht.both hw hk (hh.before hwrites.grows) hl hr
  have hload := (hh.has hwrites hgrows.pc).fieldRead (Nat.lt_trans ha hw.used_lt)
    (Nat.le_of_lt hk.ready.used_lt) hdenotes hdenotes' ht.allows hk.allows hv
  rw [hwrites.pc]
  exact Scene.Runs.exists_of_update hrun hkeep hload

theorem Source.constant_computes {k : Constant} (he : e.Simple) (hk : e.literal? = some k) :
    (Source.constant e k).Computes I := by
  intro w a hw ha
  obtain ⟨hzeros, hvalue⟩ := he.literal (I := I) hk
  exact loadConstant_evaluates w.draft.line hzeros hvalue (Nat.lt_trans ha hw.used_lt)

theorem loadName_evaluates (x : String) (hw : w.Ready) (ha : a < w.used) :
    Ensures False (loadName x a) w fun _ w' =>
      w.Delivers I (fun ρ => ρ.read? I x) a w' := by
  have ha' : a < 0x100 := Nat.lt_trans ha hw.used_lt
  rw [loadName, ensures_currentLine_bind]
  refine (slotOf?_ensures x).bind fun r w₁ h => ?_
  obtain ⟨rfl, hr⟩ := h
  cases r with
  | some r =>
    refine (plain_writes _ .move a r 0).mono fun _ w₂ h => ?_
    refine ⟨h.1.grows, h.2, h.1.evaluates fun σ regs v _ hrow hv => ?_⟩
    rw [Scene.read?_of_slot hr.symm] at hv
    obtain rfl := Option.some.inj hv
    exact (hrow 0 _ rfl).move ha' (Nat.lt_trans (hw.slots x r hr.symm) hw.used_lt)
  | none =>
    refine (upvalueOf?_writes x).bind fun u w₂ h => ?_
    obtain ⟨hwrites, hused, hfound⟩ := h
    cases u with
    | some u =>
      obtain ⟨hknows, c, hc, hname⟩ := hfound
      refine (plain_writes _ .getUpval a u 0).mono fun _ w₃ h => ?_
      refine ⟨hwrites.grows.trans h.1.grows, h.2.trans hused,
        (hwrites.append h.1).evaluates fun σ regs v hh hrow hv => ?_⟩
      rw [Scene.read?_of_knows hr.symm hknows] at hv
      obtain rfl := Option.some.inj hv
      have hdenotes : (Operand.upvalue u).Denotes I σ regs w₂.used (σ.outer x) :=
        (hh.before h.1.grows).upvalue (hwrites.grows.count hw.count) hc hname
      exact (hrow 0 _ rfl).getUpval ha' hdenotes
    | none =>
      have hw₂ : w₂.Ready := hw.same hwrites.grows hused
      refine (globalsOperand_provides (I := I) hw₂).bind fun env w₃ h => ?_
      obtain ⟨henv, hused₃, hglobals⟩ := h
      rw [ensures_usedRegisters_bind]
      have hstring : (Source.string x).Computes I := Source.constant_computes (.string x) rfl
      refine (operand_provides hstring (.string x) hglobals.ready rfl).bind fun key w₄ hkey => ?_
      have hmark : w₃.used = w₁.used := hused₃.trans hused
      rw [hmark]
      refine (getField_evaluates _ hw ha (hwrites.provides hw hused hglobals) hkey).mono
        fun _ w₅ h => ⟨h.grows, h.used, fun σ regs v hh hv => h.evaluates hh ?_⟩
      dsimp only [Source.string, Source.constant] at hv ⊢
      rw [Scene.read?_of_not_knows hr.symm hfound] at hv
      simpa only [Expr.value?, Option.bind_eq_bind, Option.bind_some] using hv

theorem loadIndex_evaluates {table key : Source} (ht : table.Computes I) (hk : key.Computes I)
    (hts : table.exp.Simple) (hks : key.exp.Simple) (hw : w.Ready) (ha : a < w.used) :
    Ensures False (loadIndex table key a) w fun _ w' =>
      w.Delivers I ((Expr.index table.exp key.exp).value? I) a w' := by
  rw [loadIndex, ensures_currentLine_bind, ensures_usedRegisters_bind]
  refine (operand_provides ht hts hw rfl).bind fun t w₁ htable => ?_
  refine (operand_provides hk hks htable.ready rfl).bind fun k w₂ hkey => ?_
  refine (getField_evaluates _ hw ha htable hkey).mono fun _ w₃ h => ?_
  simpa only [Expr.value?] using h

/-! ## Operators -/

theorem loadUnary_evaluates {s : Source} (op : UnaryOp) (hs : s.Computes I) (hss : s.exp.Simple)
    (hw : w.Ready) (ha : a < w.used) :
    Ensures False (loadUnary op s a) w fun _ w' =>
      w.Delivers I ((Expr.unary op s.exp).value? I) a w' := by
  rw [loadUnary, ensures_currentLine_bind, ensures_usedRegisters_bind]
  refine (operand_provides hs hss hw rfl).bind fun b w₁ hb => ?_
  obtain ⟨b, rfl⟩ := OperandKinds.eq_register hb.allows
  refine (plain_writes _ (Emit.unaryOpcode op) a b 0).bind fun _ w₂ h => ?_
  obtain ⟨hunary, -⟩ := h
  refine (freeRegistersTo_writes w.used).mono fun _ w₃ h => ?_
  obtain ⟨hfree, hused, -⟩ := h
  have hwrites : w₁.Writes [.abc (Emit.unaryOpcode op) a b 0] w₃ := hunary.append hfree
  refine ⟨hb.grows.trans hwrites.grows, hused, fun σ regs v hh hv => ?_⟩
  simp only [Expr.value?] at hv
  obtain ⟨u, hu, hv⟩ := Option.bind_eq_some_iff.mp hv
  obtain ⟨regs₁, hrun, ⟨hlt, rfl⟩, hkeep⟩ := hb.supplies (hh.before hwrites.grows) hu
  rw [hwrites.pc]
  exact Scene.Runs.exists_of_update hrun hkeep ((hh.has hwrites hb.grows.pc).unary
    (Nat.lt_trans ha hw.used_lt) (Nat.lt_trans hlt hb.ready.used_lt) hv)

theorem binary_writes (line : Nat) (op : BinaryOp) (a b c : Nat) :
    Ensures False (Emit.binary line op a b c) w fun _ w' =>
      w.Writes (Emit.combination op a b c) w' ∧ w'.used = w.used := by
  unfold Emit.binary Emit.combination
  cases Emit.arithmetic? op with
  | some code => exact plain_writes line code a b c
  | none =>
    cases Emit.comparison? op b c with
    | none => exact ⟨.refl w, rfl⟩
    | some test =>
      obtain ⟨code, outcome, left, right⟩ := test
      refine (plain_writes line code outcome left right).bind fun _ w₁ h₁ => ?_
      refine (jump_writes line 0 1).bind fun _ w₂ h₂ => ?_
      refine (plain_writes line .loadBool a 0 1).bind fun _ w₃ h₃ => ?_
      refine (plain_writes line .loadBool a 1 0).mono fun _ w₄ h₄ => ?_
      refine ⟨h₁.1.append (h₂.1.append (h₃.1.append h₄.1)), ?_⟩
      rw [h₄.2, h₃.2, h₂.2.1, h₁.2]

theorem loadStrict_evaluates (op : BinaryOp) (hl : left.Computes I) (hr : right.Computes I)
    (hls : left.exp.Simple) (hrs : right.exp.Simple) (hw : w.Ready) (ha : a < w.used) :
    Ensures False (loadStrict op left right a) w fun _ w' =>
      w.Delivers I
        (fun ρ => do I.strict op (← left.exp.value? I ρ) (← right.exp.value? I ρ)) a w' := by
  rw [loadStrict, ensures_currentLine_bind, ensures_usedRegisters_bind]
  refine (operand_provides hl hls hw rfl).bind fun b w₁ hb => ?_
  refine (operand_provides hr hrs hb.ready rfl).bind fun c w₂ hc => ?_
  refine (binary_writes _ op a b.field c.field).bind fun _ w₃ h => ?_
  obtain ⟨hbinary, -⟩ := h
  refine (freeRegistersTo_writes w.used).mono fun _ w₄ h => ?_
  obtain ⟨hfree, hused, -⟩ := h
  have hgrows : w.Grows w₂ := hb.grows.trans hc.grows
  have hwrites : w₂.Writes (Emit.combination op a b.field c.field) w₄ := by
    simpa using hbinary.append hfree
  refine ⟨hgrows.trans hwrites.grows, hused, fun σ regs v hh hv => ?_⟩
  obtain ⟨u, hu, hv⟩ := Option.bind_eq_some_iff.mp hv
  obtain ⟨u', hu', hv⟩ := Option.bind_eq_some_iff.mp hv
  obtain ⟨regs₂, hrun, hdenotes, hdenotes', hkeep⟩ :=
    hb.both hw hc (hh.before hwrites.grows) hu hu'
  rw [hwrites.pc]
  exact Scene.Runs.exists_of_update hrun hkeep ((hh.row hwrites hgrows.pc).combination
    (Nat.lt_trans ha hw.used_lt) (Nat.le_of_lt hc.ready.used_lt) hdenotes hdenotes' hb.allows
    hc.allows hv)

/-- An operand that is in a register is moved to another. -/
theorem Workspace.Provides.evaluates_move {c : Nat} (hc : w.Provides I f kinds (.register c) w₁)
    (hmove : w₁.Writes [.abc .move a c 0] w₂) (ha : a < 0x100) : w.Evaluates I f a w₂ := by
  intro σ regs v hh hv
  obtain ⟨regs₁, hrun, ⟨hlt, rfl⟩, hkeep⟩ := hc.supplies (hh.before hmove.grows) hv
  rw [hmove.pc]
  exact Scene.Runs.exists_of_update hrun hkeep
    ((hh.has hmove hc.grows.pc).move ha (Nat.lt_trans hlt hc.ready.used_lt))

/-- The left operand decides if its truth value is the one that is kept. -/
theorem loadShortCircuit_evaluates {keep : Nat} (hkeep : keep < 0x200) (hl : left.Computes I)
    (hr : right.Computes I) (hls : left.exp.Simple) (hrs : right.exp.Simple) (hw : w.Ready)
    (ha : a < w.used) :
    Ensures False (loadShortCircuit keep left right a) w fun _ w' =>
      w.Delivers I (fun ρ => do
        let l ← left.exp.value? I ρ
        if I.truthy l = (keep != 0) then some l else right.exp.value? I ρ) a w' := by
  have ha' : a < 0x100 := Nat.lt_trans ha hw.used_lt
  rw [loadShortCircuit, ensures_currentLine_bind, ensures_usedRegisters_bind]
  refine (operand_provides hl hls hw rfl).bind fun b w₁ hb => ?_
  obtain ⟨b, rfl⟩ := OperandKinds.eq_register hb.allows
  refine (freeRegistersTo_writes w.used).bind fun _ w₂ h => ?_
  obtain ⟨hfree, hused₂, -⟩ := h
  refine (plain_writes _ .testSet a b keep).bind fun _ w₃ h => ?_
  obtain ⟨htest, hused₃⟩ := h
  refine (jump_writes _ 0 0).bind fun skip w₄ h => ?_
  obtain ⟨hjump, hused₄, rfl⟩ := h
  have hgrows₂ : w.Grows w₂ := hb.grows.trans hfree.grows
  have hgrows₄ : w.Grows w₄ := (hgrows₂.trans htest.grows).trans hjump.grows
  have hw₄ : w₄.Ready := hw.same hgrows₄ (by omega)
  refine (operand_provides hr hrs hw₄ rfl).bind fun c w₅ hc => ?_
  obtain ⟨c, rfl⟩ := OperandKinds.eq_register hc.allows
  refine (freeRegistersTo_writes w.used).bind fun _ w₆ h => ?_
  obtain ⟨hfree', hused₆, -⟩ := h
  refine (plain_writes _ .move a c 0).bind fun _ w₇ h => ?_
  obtain ⟨hmove, hused₇⟩ := h
  have hwrites₇ : w₅.Writes [.abc .move a c 0] w₇ := hfree'.append hmove
  have hgrows₇ : w₄.Grows w₇ := hc.grows.trans hwrites₇.grows
  have hpc₃ : w₃.draft.pc = w₂.draft.pc + 1 := htest.pc
  have hpc₄ : w₄.draft.pc = w₃.draft.pc + 1 := hjump.pc
  have hhole : w₇.draft.code[w₃.draft.pc]? = some (.asbx .jmp 0 0) :=
    (hgrows₇.code _ (by omega)).trans (hjump.code 0 _ rfl)
  rw [ensures_here_bind]
  refine (aimJump_ensures le_rfl hhole).mono fun _ w₈ h => ?_
  obtain ⟨hreach, hoptions, henclosing, hdraft⟩ := h
  have hgrows₈ : w₃.Grows w₈ :=
    (hjump.grows.trans hgrows₇).setCode hoptions henclosing hdraft le_rfl
  refine ⟨(hgrows₂.trans htest.grows).trans hgrows₈, ?_, fun σ regs v hh hv => ?_⟩
  · rw [Workspace.used, hdraft]
    exact hused₇.trans hused₆
  obtain ⟨l, hlv, hv⟩ := Option.bind_eq_some_iff.mp hv
  have hh₃ : σ.Hosts w.draft.pc w₃ := hh.before hgrows₈
  have hh₂ : σ.Hosts w.draft.pc w₂ := hh₃.before htest.grows
  obtain ⟨regs₁, hrun₁, ⟨hlt, rfl⟩, hkeep₁⟩ := hb.supplies (hh₂.before hfree.grows) hlv
  have hpc₂ : w₂.draft.pc = w₁.draft.pc := hfree.pc
  have hb' : b < 0x100 := Nat.lt_trans hlt hb.ready.used_lt
  have hhas : σ.Has w₂.draft.pc (.abc .testSet a b keep) := hh₃.has htest hgrows₂.pc
  have hpc₇ := hgrows₇.pc
  obtain ⟨hskip, hbehind⟩ := hh.setCode hdraft (Nat.le_trans hgrows₂.pc (by omega)) (by omega)
  have hpc₈ : w₈.draft.pc = w₇.draft.pc := by
    rw [hdraft]
    exact Array.size_setIfInBounds
  rw [← hpc₂] at hrun₁
  rw [hpc₈]
  by_cases hkept : I.truthy (regs₁ b) = (keep != 0)
  · rw [if_pos hkept] at hv
    obtain rfl := Option.some.inj hv
    have hjump : ∀ regs, σ.Runs I w₃.draft.pc regs w₇.draft.pc regs := fun regs =>
      hskip.jump hreach (by omega)
    have hset := (hhas.testSet ha' hb' hkeep hkept).trans (hpc₃ ▸ hjump _)
    exact Scene.Runs.exists_of_update hrun₁ hkeep₁ hset
  · rw [if_neg hkept] at hv
    have henv : σ.environment w₄ regs₁ = σ.environment w regs :=
      Scene.environment_congr hw hgrows₄ hkeep₁
    -- the test skips the jump, and behind the jump nothing was changed
    have hother := hhas.testSet_skip hb' hkeep hkept
    rw [show w₂.draft.pc + 2 = w₄.draft.pc by omega] at hother
    obtain ⟨regs₂, hrun₂, hval, hkeep₂⟩ :=
      hc.evaluates_move hwrites₇ ha' (hbehind _ (by omega)) (henv ▸ hv)
    refine ⟨regs₂, (hrun₁.trans hother).trans hrun₂, hval, fun r hr hne => ?_⟩
    rw [hkeep₂ r (by omega) hne, hkeep₁ r hr]

theorem loadBinary_evaluates (op : BinaryOp) (hl : left.Computes I) (hr : right.Computes I)
    (hls : left.exp.Simple) (hrs : right.exp.Simple) (hw : w.Ready) (ha : a < w.used) :
    Ensures False (loadBinary op left right a) w fun _ w' =>
      w.Delivers I ((Expr.binary op left.exp right.exp).value? I) a w' := by
  by_cases hand : op = .and
  · subst hand
    refine (loadShortCircuit_evaluates (by decide) hl hr hls hrs hw ha).mono fun _ w' h => ?_
    simpa [Expr.value?, ← Bool.not_eq_true, ite_not] using h
  by_cases hor : op = .or
  · subst hor
    refine (loadShortCircuit_evaluates (by decide) hl hr hls hrs hw ha).mono fun _ w' h => ?_
    simpa [Expr.value?] using h
  have hload : loadBinary op left right a = loadStrict op left right a := by
    cases op <;> first | rfl | contradiction
  have hvalue : ∀ ρ, (Expr.binary op left.exp right.exp).value? I ρ = (do
      I.strict op (← left.exp.value? I ρ) (← right.exp.value? I ρ)) := by
    intro ρ
    cases op <;> first | contradiction | rw [Expr.value?] <;> simp
  rw [hload]
  refine (loadStrict_evaluates op hl hr hls hrs hw ha).mono fun _ w' h => ?_
  simpa only [hvalue] using h

/-! ## Concatenation -/

/-- Values are loaded into registers in a row. -/
theorem loadEach_evaluates (hs : ∀ s ∈ sources, s.Computes I) :
    ∀ {w : Workspace}, w.Ready → Ensures False (loadEach 1 sources) w fun _ w' =>
      w.Grows w' ∧ w'.Ready ∧ w'.used = w.used + sources.length ∧
      ∀ ⦃σ : Scene V H⦄ ⦃regs : Nat → V⦄ ⦃vs : List V⦄, σ.Hosts w.draft.pc w' →
        Expr.values? I (σ.environment w regs) (sources.map (·.exp)) = some vs →
        ∃ regs', σ.Runs I w.draft.pc regs w'.draft.pc regs' ∧
          (List.range' w.used sources.length).map regs' = vs ∧ ∀ r < w.used, regs' r = regs r := by
  induction sources with
  | nil =>
    intro w hw
    refine ⟨.refl w, hw, rfl, fun σ regs vs _ hvs => ⟨regs, .refl, ?_, fun _ _ => rfl⟩⟩
    rw [List.map_nil, Expr.values?] at hvs
    exact Option.some.inj hvs
  | cons s rest ih =>
    intro w hw
    obtain ⟨hfirst, hrest⟩ := List.forall_mem_cons.mp hs
    have hload : loadEach 1 (s :: rest) = (do
        let r ← takeRegister
        s.load r 1
        loadEach 1 rest) := by
      cases rest with
      | nil => simp only [loadEach, bind_pure_unit]
      | cons => rfl
    rw [hload]
    refine takeRegister_writes.bind fun r w₁ h => ?_
    obtain ⟨htake, rfl, hused₁, hroom⟩ := h
    have hw₁ : w₁.Ready := hw.grows htake.grows (by omega) hroom
    refine (hfirst hw₁ (by omega)).bind fun _ w₂ h => ?_
    obtain ⟨hgrows₂, hused₂, hevaluates⟩ := h
    have hw₂ : w₂.Ready := hw₁.same hgrows₂ hused₂
    refine (ih hrest hw₂).mono fun _ w₃ h => ?_
    obtain ⟨hgrows₃, hw₃, hused₃, hrow⟩ := h
    have hpc₁ : w₁.draft.pc = w.draft.pc := htake.pc
    have hgrows : w.Grows w₂ := htake.grows.trans hgrows₂
    have hlength : (s :: rest).length = rest.length + 1 := rfl
    refine ⟨hgrows.trans hgrows₃, hw₃, by omega, fun σ regs vs hh hvs => ?_⟩
    rw [List.map_cons, Expr.values?] at hvs
    obtain ⟨v, hv, hvs⟩ := Option.bind_eq_some_iff.mp hvs
    obtain ⟨vs', hvs', heq⟩ := Option.bind_eq_some_iff.mp hvs
    obtain rfl := Option.some.inj heq
    have henv₁ : σ.environment w₁ regs = σ.environment w regs :=
      Scene.environment_congr hw htake.grows fun _ _ => rfl
    obtain ⟨regs₁, hrun₁, hval, hkeep₁⟩ :=
      hevaluates ((hh.before hgrows₃).after (Nat.le_of_eq hpc₁.symm)) (henv₁ ▸ hv)
    have hkeep : ∀ r < w.used, regs₁ r = regs r := fun r hr => hkeep₁ r (by omega) (by omega)
    have henv₂ : σ.environment w₂ regs₁ = σ.environment w regs :=
      Scene.environment_congr hw hgrows hkeep
    obtain ⟨regs₂, hrun₂, hvals, hkeep₂⟩ := hrow (hh.after hgrows.pc) (henv₂ ▸ hvs')
    refine ⟨regs₂, (hpc₁ ▸ hrun₁).trans hrun₂, ?_, fun r hr => ?_⟩
    · rw [hlength, List.range'_succ, List.map_cons, hkeep₂ _ (by omega), hval, ← hvals, hused₂,
        hused₁]
    · rw [hkeep₂ r (by omega), hkeep r hr]

theorem loadConcat_evaluates (hne : sources ≠ []) (hs : ∀ s ∈ sources, s.Computes I) (hw : w.Ready)
    (ha : a < w.used) :
    Ensures False (loadConcat sources a) w fun _ w' =>
      w.Delivers I (fun ρ => do I.concat (← Expr.values? I ρ (sources.map (·.exp)))) a w' := by
  rw [loadConcat, ensures_currentLine_bind, ensures_usedRegisters_bind]
  refine (loadEach_evaluates hs hw).bind fun _ w₁ h => ?_
  obtain ⟨hgrows, hw₁, hused₁, hrow⟩ := h
  -- there is a last operand
  obtain ⟨n, hn⟩ := Nat.exists_eq_succ_of_ne_zero (mt List.length_eq_zero_iff.mp hne)
  have hlast : w.used + sources.length - 1 = w.used + n := by omega
  rw [ensures_usedRegisters_bind, before, hused₁, if_pos (by omega), ensures_pure_bind, hlast]
  refine (freeRegistersTo_writes w.used).bind fun _ w₂ h => ?_
  obtain ⟨hfree, hused₂, -⟩ := h
  refine (plain_writes _ .concat a w.used (w.used + n)).mono fun _ w₃ h => ?_
  obtain ⟨hconcat, hused₃⟩ := h
  have hwrites : w₁.Writes [.abc .concat a w.used (w.used + n)] w₃ := hfree.append hconcat
  refine ⟨hgrows.trans hwrites.grows, hused₃.trans hused₂, fun σ regs v hh hv => ?_⟩
  obtain ⟨vs, hvs, hv⟩ := Option.bind_eq_some_iff.mp hv
  obtain ⟨regs₁, hrun, rfl, hkeep⟩ := hrow (hh.before hwrites.grows) hvs
  have hlt := hw₁.used_lt
  rw [hn] at hv
  rw [hwrites.pc]
  exact Scene.Runs.exists_of_update hrun hkeep
    ((hh.has hwrites hgrows.pc).concat (Nat.lt_trans ha hw.used_lt) (by omega) hv)

/-! ## Every simple expression -/

theorem Expr.Simple.computes (he : e.Simple) : e.source.Computes I := by
  induction he with
  | nil =>
    intro w a hw ha
    have hone : (max (1 : Int) 1).toNat = 1 := rfl
    show Ensures False (Expr.lower .nil a 1) w _
    rw [Expr.lower, ensures_currentLine_bind, Emit.loadNil, hone]
    refine (plain_writes w.draft.line .loadNil a 0 0).mono fun _ w' h => ?_
    refine ⟨h.1.grows, h.2, h.1.evaluates fun σ regs v _ hrow hv => ?_⟩
    simp only [Expr.source, Expr.value?, Option.some.injEq] at hv
    subst hv
    exact (hrow 0 _ rfl).loadNil (Nat.lt_trans ha hw.used_lt)
  | boolean b =>
    intro w a hw ha
    show Ensures False (Expr.lower (.boolean b) a 1) w _
    rw [Expr.lower, ensures_currentLine_bind]
    refine (plain_writes w.draft.line .loadBool a (if b then 1 else 0) 0).mono fun _ w' h => ?_
    refine ⟨h.1.grows, h.2, h.1.evaluates fun σ regs v _ hrow hv => ?_⟩
    simp only [Expr.source, Expr.value?, Option.some.injEq] at hv
    subst hv
    cases b <;>
      exact (hrow 0 _ rfl).loadBool (Nat.lt_trans ha hw.used_lt) (by decide) (by decide)
  | integer n => exact Source.constant_computes (.integer n) rfl
  | string s => exact Source.constant_computes (.string s) rfl
  | name x =>
    intro w a hw ha
    refine (loadName_evaluates (I := I) x hw ha).mono fun _ w' h => ?_
    simpa only [Expr.source, Expr.value?] using h
  | paren _ ih =>
    intro w a hw ha
    refine (ih hw ha).mono fun _ w' h => ?_
    simpa only [Expr.source, Expr.value?] using h
  | index ht hk iht ihk => exact fun w a hw ha => loadIndex_evaluates iht ihk ht hk hw ha
  | unary op h ih => exact fun w a hw ha => loadUnary_evaluates op ih h hw ha
  | binary op hl hr ihl ihr => exact fun w a hw ha => loadBinary_evaluates op ihl ihr hl hr hw ha
  | @concat operands hne h ih =>
    intro w a hw ha
    have hlower : (Expr.concat operands).source.load a 1 =
        loadConcat (operands.map Expr.source) a := by
      show Expr.lower (.concat operands) a 1 = _
      rw [Expr.lower, Expr.sources_eq_map]
    have hne' : operands.map Expr.source ≠ [] := mt List.map_eq_nil_iff.mp hne
    have hs : ∀ s ∈ operands.map Expr.source, s.Computes I := List.forall_mem_map.mpr ih
    rw [hlower]
    refine (loadConcat_evaluates hne' hs hw ha).mono fun _ w' h => ?_
    rw [List.map_map, show Source.exp ∘ Expr.source = id from rfl, List.map_id] at h
    simpa only [Expr.source, Expr.value?] using h

end LuaLowering
