import LuaLowering.Proofs.Layout.Loads
import LuaLowering.Proofs.Layout.Statement

/-!
# The registers of a call

A call finds the function, the receiver of a method and the arguments in registers next to
each other. Each of them is put there while what stands before it is left alone, and the
instruction that calls says how many there are, or that the last one has left that open.
-/

namespace LuaLowering

open LowerM

variable {w w' : Workspace} {a : Nat}

/-! ## The receiver -/

/-- A run of the builder fetched a method into `a` and left its receiver behind it. The name of
the method is a constant, or else it is loaded behind them first. -/
inductive Workspace.Receives (w' : Workspace) (line a : Nat) :
    Option String → Workspace → Workspace → Prop
  | nothing (w : Workspace) : Receives w' line a none w w
  | method {m : String} {w u v w₁ : Workspace} {field : Nat}
      (hrun : loadMethod line a m w = .ok () w₁) (htake : takeRegister w = .ok (a + 1) u)
      (hname : w'.OperandAt (.string m) u field v) (hself : w'.HasAt v.draft.pc .self a a field)
      (hpc : w₁.draft.pc = v.draft.pc + 1) : Receives w' line a (some m) w w₁

theorem loadMethod_receives (line : Nat) (m : String) (hw : w.InFields) (hused : w.used = a + 1)
    (ha : a < 0x100) :
    Ensures False (loadMethod line a m) w fun _ w₁ =>
      ∀ w', w₁.Straight a w' → ∃ u v field, takeRegister w = .ok (a + 1) u ∧
        w'.OperandAt (.string m) u field v ∧ w'.HasAt v.draft.pc .self a a field ∧
        w₁.draft.pc = v.draft.pc + 1 := by
  refine (takeRegister_writes.and (ensures_run _ w)).bind fun r w₁ h₁ => ?_
  obtain ⟨⟨htake, rfl, -⟩, hrun₁⟩ := h₁
  refine ((operand_finds (.string m) .registerOrConstant).and (ensures_run _ w₁)).bind
    fun key w₂ h₂ => ?_
  obtain ⟨hkey, hrun₂⟩ := h₂
  refine ((plain_writes line .self a a key.field).and (plain_straight line a rfl)).bind
    fun _ w₃ h₃ => ?_
  obtain ⟨⟨hself, -⟩, hstraight, -⟩ := h₃
  -- the register of a name that was loaded is given back, and nothing is written for that
  have hend : ∀ w₄, w₃.Writes [] w₄ →
      ∀ w', w₄.Straight a w' → ∃ u v field, takeRegister w = .ok (a + 1) u ∧
        w'.OperandAt (.string m) u field v ∧ w'.HasAt v.draft.pc .self a a field ∧
        w₄.draft.pc = v.draft.pc + 1 := by
    intro w₄ h₄ w' hlater
    have hrest : w₃.Straight a w' := (h₄.straight_nil a).trans hlater
    have hname := hkey.operandAt hrun₂ (.constant rfl) (hw.straight (htake.straight_nil a))
      (hstraight.trans hrest)
    have hat := hself.hasAt hrest.toAppends
    rw [Nat.mod_eq_of_lt ha, Nat.mod_eq_of_lt (by omega)] at hat
    exact ⟨w₁, w₂, _, hused ▸ hrun₁, hname, hat, h₄.pc.trans hself.pc⟩
  cases key with
  | register r => exact (freeRegisters_writes 1).mono fun _ w₄ h => hend w₄ h.1
  | constant k => exact hend w₃ (.refl w₃)
  | upvalue u => exact hend w₃ (.refl w₃)

theorem loadReceiver_receives (line : Nat) (method : Option String) (hw : w.InFields)
    (hused : w.used = a + 1) (ha : a < 0x100) :
    Ensures False (loadReceiver line a method) w fun _ w₁ =>
      w.Straight a w₁ ∧ w₁.used = w.used + receivers method ∧
      ∀ w', w₁.Straight a w' → w'.Receives line a method w w₁ := by
  cases method with
  | none => exact ⟨.refl w a, rfl, fun w' _ => .nothing _⟩
  | some m =>
    have hstraight := loadMethod_straight line m (w := w) (a := a) (by omega)
    have hvets := (loadMethod_vets line a m w).ensures
    have hreceives := (loadMethod_receives line m hw hused ha).and (ensures_run _ w)
    refine ((hstraight.and hvets).and hreceives).mono fun _ w₁ h => ?_
    obtain ⟨⟨h₁, -, hused₁⟩, hreceives, hrun⟩ := h
    refine ⟨h₁, hused₁, fun w' hlater => ?_⟩
    obtain ⟨u, v, field, htake, hname, hself, hpc⟩ := hreceives w' hlater
    exact .method hrun htake hname hself hpc

/-! ## The arguments -/

/-- How many values the last expression of a list is asked for if all are wanted. -/
def Expr.lastWanted (es : List Expr) : Int := if Expr.expands es then allValues else 1

theorem expands_sources (es : List Expr) : expands (Expr.sources es) = Expr.expands es := by
  rw [Expr.sources_eq_map, expands, Expr.expands, List.getLast?_map]
  cases es.getLast? <;> rfl

theorem loadAll_row (es : List Expr) (hlimit : w.draft.registers.limit ≤ 0xff) :
    Ensures False (loadAll (Expr.sources es)) w fun n w₁ =>
      n = (if Expr.expands es then allValues else (es.length : Int)) ∧
      (es ≠ [] → w.used + es.length ≤ w.draft.registers.limit) ∧
      ∀ w', w₁.Appends w' → ∃ states : Nat → Workspace, states 0 = w ∧
        states es.length = w₁ ∧ w'.LoadsRow es w.used (Expr.lastWanted es) states := by
  have hlength : (Expr.sources es).length = es.length := by
    rw [Expr.sources_eq_map, List.length_map]
  unfold loadAll Expr.lastWanted
  rw [expands_sources, hlength]
  split
  · refine (loadEach_row allValues es w hlimit).bind fun _ w₁ h => ?_
    exact ⟨rfl, h.2⟩
  · refine (loadEach_row 1 es w hlimit).bind fun _ w₁ h => ?_
    exact ⟨rfl, h.2⟩

/-! ## Calls -/

/-- The function and the arguments of a call stand in the registers from `a` on. The argument
`k` is loaded in the state `k`, and the function and the receiver are loaded up to the first
of them. -/
structure Call.FrameAt (c : Call) (a : Nat) (w w' : Workspace) (states : Nat → Workspace) :
    Prop where
  callee : ∃ u v, setLine c.line w = .ok () u ∧ w'.LoadsAt c.callee.source a 1 u v ∧
    w'.Receives c.line a c.method v (states 0)
  args : w'.LoadsRow c.args (a + 1 + receivers c.method) (Expr.lastWanted c.args) states

/-- What tells a call how many arguments there are, the receiver among them: one more than
their number, or zero if only the last one knows it. -/
def Call.argsField (c : Call) : Nat :=
  if Expr.expands c.args then 0 else c.args.length + receivers c.method + 1

theorem Call.prepare_frame (c : Call) (hw : w.InFields) (hused : w.used = a + 1) (ha : a < 0xff) :
    Ensures False (c.prepare a) w fun n w₁ =>
      w.Straight a w₁ ∧ n = (c.argsField : Int) - 1 ∧ c.argsField ≤ 0xff ∧
      ∀ w', w₁.Straight a w' → ∃ states : Nat → Workspace,
        (states c.args.length).draft.pc = w₁.draft.pc ∧ c.FrameAt a w w' states := by
  obtain ⟨callee, method, args, line⟩ := c
  have hlimit := hw.limit
  have hcallee : callee.source.Tidy := Expr.lower_tidy callee
  rw [Call.prepare, layOutCall, ensures_currentLine_bind]
  refine ((setLine_writes line).and (ensures_run _ w)).bind fun _ w₁ h₁ => ?_
  obtain ⟨⟨hline, hused₁⟩, hset⟩ := h₁
  have hlimit₁ := hline.grows.limit
  refine (ensures_run (callee.source.load a 1) w₁).bind fun _ w₂ hload => ?_
  obtain ⟨hloaded, hused₂⟩ := (hcallee.load 1 (by omega)).of_ok hload
  have hfirst : w.Straight a w₂ := (hline.straight_nil a).trans hloaded
  refine (loadReceiver_receives line method (hw.straight hfirst) (by omega) (by omega)).bind
    fun _ w₃ h₃ => ?_
  obtain ⟨hreceiver, hused₃, hreceives⟩ := h₃
  have hsecond : w.Straight a w₃ := hfirst.trans hreceiver
  have hlimit₃ := hsecond.limit
  refine ((loadAll_row args (by omega)).and
    (loadAll_straight (Expr.sources_tidy args) (a := a) (by omega))).bind fun n w₄ h₄ => ?_
  obtain ⟨⟨rfl, hroom, hlist⟩, hargs, -⟩ := h₄
  refine (freeRegisters_writes _).bind fun _ w₅ h₅ => ?_
  have hfree : Ensures False (freeReceiver method) w₅ fun _ w₆ => w₅.Writes [] w₆ := by
    cases method with
    | none => exact .refl w₅
    | some m => exact (freeRegisters_writes 1).mono fun _ _ h => h.1
  refine hfree.bind fun _ w₆ h₆ => ?_
  refine (setLine_writes _).bind fun _ w₇ h₇ => ?_
  have hend : w₄.Writes [] w₇ := h₅.1.append (h₆.append h₇.1)
  rw [ensures_pure]
  have hall : w₃.Straight a w₇ := hargs.trans (hend.straight_nil a)
  refine ⟨hsecond.trans hall, ?_, ?_, fun w' hlater => ?_⟩
  · unfold Call.argsField receivers
    cases Expr.expands args <;> cases method <;> simp [allValues]
  · have hreceivers : receivers method ≤ 1 := by
      unfold receivers
      split <;> omega
    show (if Expr.expands args then 0 else args.length + receivers method + 1) ≤ 0xff
    split
    · omega
    · cases args with
      | nil => simp only [List.length_nil]; omega
      | cons e rest =>
        have hroom := hroom (List.cons_ne_nil e rest)
        omega
  · obtain ⟨states, rfl, rfl, hloads⟩ := hlist w' ((hend.straight_nil a).trans hlater).toAppends
    refine ⟨states, hend.pc.symm, ⟨w₁, w₂, hset, ?_, hreceives w' (hall.trans hlater)⟩, ?_⟩
    · exact hcallee.loadsAt hload (by omega) (by omega) (by omega)
        (hreceiver.trans (hall.trans hlater)).toAppends
    · rw [hused₃, hused₂, hused₁, hused] at hloads
      exact hloads

/-- A call was lowered: its frame, and behind it the instruction that calls. -/
structure Call.LaidOut (c : Call) (a : Nat) (op : Opcode) (results : Nat) (w w' : Workspace)
    (states : Nat → Workspace) : Prop extends c.FrameAt a w w' states where
  above : w'.site.Region a w.draft.pc w'.draft.pc
  stop : w'.draft.pc = (states c.args.length).draft.pc + 1
  calls : w'.HasAt (states c.args.length).draft.pc op a c.argsField results

theorem countField_small {n : Int} (hge : -1 ≤ n) (hlt : n < 0xff) :
    Ensures False (countField n) w fun field w' => w' = w ∧ field % 0x200 = (n + 1).toNat := by
  refine (countField_ensures n).mono fun field w' h => ⟨h.1, ?_⟩
  obtain ⟨-, -, rfl⟩ := h
  omega

section

variable (hw : w.InFields) (hused : w.used = a + 1) (ha : a < 0xff) (c : Call)

include hw hused ha

/-- Any instruction that has the first register of the frame and the number of arguments. -/
theorem Call.prepare_laidOut {op : Opcode} {results : LowerM Nat} {field : Nat}
    (hways : op.ways (a % 0x100) field = [(.next, [])])
    (hresults : ∀ w, Ensures False results w fun n w' => w' = w ∧ n % 0x200 = field) :
    Ensures False (do
        let n ← c.prepare a
        Emit.plain c.line op a (← countField n) (← results)) w
      fun _ w' => ∃ states, c.LaidOut a op field w w' states := by
  have hlimit := hw.limit
  refine (Call.prepare_frame c hw hused ha).bind fun n w₁ h₁ => ?_
  obtain ⟨hstraight, rfl, hsmall, hframe⟩ := h₁
  refine (countField_small (by omega) (by omega)).bind fun b w₂ h₂ => ?_
  obtain ⟨rfl, hb⟩ := h₂
  refine (hresults _).bind fun n w₂ h₂ => ?_
  obtain ⟨rfl, rfl⟩ := h₂
  refine ((plain_writes c.line op a b n).and (plain_straight c.line b hways)).mono fun _ w' h => ?_
  obtain ⟨⟨hwrites, -⟩, hcalled, -⟩ := h
  obtain ⟨states, hlast, hat⟩ := hframe w' hcalled
  refine ⟨states, hat, ?_, ?_, ?_⟩
  · exact (hstraight.trans hcalled).region (by omega) (by omega) fun _ _ _ => rfl
  · rw [hlast]
    exact hwrites.pc
  · have hhas := hwrites.hasAt (.refl w')
    rw [Nat.mod_eq_of_lt (by omega), hb, Int.sub_add_cancel, Int.toNat_natCast] at hhas
    rw [hlast]
    exact hhas

end

/-- What is called and what it is called with stand next to each other, each loaded without a
change to what stands before it, and the instruction at the end calls just that. -/
theorem Call.lower_frame {o : Options} (hreach : Reachable o w) (hregisters : o.registerLimit ≤ 255)
    (hconstants : o.constantLimit ≤ 255) (hused : w.used = a + 1) (c : Call) :
    (∀ want : Int, -1 ≤ want → want ≤ 254 → ∀ w', c.lower a want w = .ok () w' →
      ∃ states, c.LaidOut a .call (want + 1).toNat w w' states) ∧
    (∀ w', c.lowerTail a w = .ok () w' → ∃ states, c.LaidOut a .tailCall 0 w w' states) := by
  have hle := hreach.used_le
  have hw := hreach.inFields hregisters hconstants
  constructor
  · intro want hge hle w' hrun
    rw [Call.lower_eq] at hrun
    exact (Call.prepare_laidOut hw hused (by omega) c rfl
      fun w => countField_small hge (by omega)).of_ok hrun
  · intro w' hrun
    have hnone : ∀ w, Ensures False (pure 0 : LowerM Nat) w fun n w' => w' = w ∧ n % 0x200 = 0 :=
      fun w => ⟨rfl, rfl⟩
    exact (Call.prepare_laidOut hw hused (by omega) c rfl hnone).of_ok hrun

/-- `t:m(g(...), 7, h())`, where the name of the method does not fit an operand. -/
theorem Call.lower_frame_of_method :
    let o : Options := { constantLimit := 0 }
    let c : Call := ⟨.name "t", some "m", [.call ⟨.name "g", none, [.vararg], 1⟩, .integer 7,
      .call ⟨.name "h", none, [], 1⟩], 1⟩
    ∃ w w₁ w₂, takeRegister (.main o) = .ok 0 w ∧ w.used = 1 ∧
      c.lower 0 3 w = .ok () w₁ ∧ c.lowerTail 0 w = .ok () w₂ ∧
      (∃ states, c.LaidOut 0 .call 4 w w₁ states) ∧
      ∃ states, c.LaidOut 0 .tailCall 0 w w₂ states := by
  intro o c
  have hrun : (match takeRegister (.main o) with
      | .ok r w =>
        match c.lower 0 3 w, c.lowerTail 0 w with
        | .ok _ _, .ok _ _ => decide (r = 0 ∧ w.used = 1)
        | _, _ => false
      | _ => false) = true := by decide +kernel
  split at hrun
  · next r w htake =>
    split at hrun
    · next _ w₁ _ w₂ hcall htail =>
      obtain ⟨rfl, hused⟩ := of_decide_eq_true hrun
      have hreach : Reachable o w := .history .main ((History.start _).finished .takeRegister htake)
      have hframe := Call.lower_frame hreach (by decide) (by decide) hused c
      exact ⟨w, w₁, w₂, htake, hused, hcall, htail, hframe.1 3 (by decide) (by decide) w₁ hcall,
        hframe.2 w₂ htail⟩
    · cases hrun
  · cases hrun

end LuaLowering
