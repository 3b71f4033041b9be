import LuaLowering.Proofs.Evaluation.Machine
import LuaLowering.Proofs.Flow.Effects

/-!
# When one store disturbs another

A store disturbs a later one if it changes a register or an upvalue that the later one
reads as its table, key, environment or value. If no store of a run disturbs another, each
of them puts the value it would have put, and where it would have put it, had it been the
first.
-/

namespace LuaLowering

namespace Instruction

variable {i : Instruction} {op : Opcode} {r u : Nat}

/-- Whether an instruction stores a register somewhere. -/
def isStore (i : Instruction) : Bool :=
  i.opcode?.any fun op => op = .move ∨ op = .setUpval ∨ op = .setTable ∨ op = .setTabUp

/-- A register is read. -/
def ReadsRegister (i : Instruction) (r : Nat) : Prop := ∃ s ∈ i.reads, r ∈ s.toSet

/-- A register is written. -/
def WritesRegister (i : Instruction) (r : Nat) : Prop := ∃ s ∈ i.writes, r ∈ s.toSet

/-- The upvalue that is assigned. -/
def assigned? (i : Instruction) : Option Nat :=
  if i.opcode? = some .setUpval then some i.b else none

/-- The upvalues whose values matter. -/
def consulted (i : Instruction) : List Nat := if i.opcode? = some .setUpval then [] else i.upvalues

/-- An instruction changes something that another one reads. -/
def Disturbs (i j : Instruction) : Prop :=
  (∃ r, i.WritesRegister r ∧ j.ReadsRegister r) ∨ ∃ u, i.assigned? = some u ∧ u ∈ j.consulted

/-! ## What the stores read and write -/

theorem mem_registerIn {field : Nat} {r : Nat} :
    (∃ s ∈ registerIn field, r ∈ s.toSet) ↔ isConstant field = false ∧ r = field := by
  unfold registerIn
  cases isConstant field <;> simp

theorem readsRegister_move (h : i.opcode? = some .move) : i.ReadsRegister r ↔ r = i.b := by
  simp [ReadsRegister, reads_eq h]

theorem readsRegister_setUpval (h : i.opcode? = some .setUpval) : i.ReadsRegister r ↔ r = i.a := by
  simp [ReadsRegister, reads_eq h]

theorem readsRegister_setTable (h : i.opcode? = some .setTable) :
    i.ReadsRegister r ↔ r = i.a ∨ (isConstant i.b = false ∧ r = i.b) ∨
      (isConstant i.c = false ∧ r = i.c) := by
  simp only [ReadsRegister, reads_eq h, Opcode.reads, List.mem_cons, List.mem_append, or_and_right,
    exists_or, mem_registerIn, exists_eq_left, Span.toSet_one, Set.mem_singleton_iff]

theorem readsRegister_setTabUp (h : i.opcode? = some .setTabUp) :
    i.ReadsRegister r ↔ (isConstant i.b = false ∧ r = i.b) ∨
      (isConstant i.c = false ∧ r = i.c) := by
  simp only [ReadsRegister, reads_eq h, Opcode.reads, List.mem_append, or_and_right, exists_or,
    mem_registerIn]

theorem writesRegister_move (h : i.opcode? = some .move) : i.WritesRegister r ↔ r = i.a := by
  simp [WritesRegister, writes_eq h]

/-- Of the stores, only a move writes a register. -/
theorem not_writesRegister (h : i.opcode? = some op)
    (hop : op = .setUpval ∨ op = .setTable ∨ op = .setTabUp) : ¬ i.WritesRegister r := by
  rcases hop with rfl | rfl | rfl <;> simp [WritesRegister, writes_eq h]

end Instruction

namespace Evaluation

variable {V H : Type} {I : Interpretation V H} {p : Prototype} {s s' : State V H}
  {i : Instruction} {op : Opcode}

/-- The store at a position, as it would be carried out in some state. -/
def storeAt? (I : Interpretation V H) (p : Prototype) (s : State V H) (pc : Nat) :
    Option (Destination V × V) := do
  let i ← p.code[pc]?
  store? I p s i (← i.opcode?)

theorem operand?_congr {field : Nat}
    (h : Instruction.isConstant field = false → s'.regs field = s.regs field) :
    operand? I p s' field = operand? I p s field := by
  unfold operand? State.register?
  cases hfield : Instruction.isConstant field with
  | true => rfl
  | false => rw [h hfield]

/-- A store depends on what it reads. -/
theorem store?_congr (hop : i.opcode? = some op)
    (hregs : ∀ r, i.ReadsRegister r → s'.regs r = s.regs r)
    (hupvalues : ∀ u ∈ i.consulted, s'.upvalues u = s.upvalues u) :
    store? I p s' i op = store? I p s i op := by
  cases op with
  | move =>
    have hb := hregs i.b ((Instruction.readsRegister_move hop).mpr rfl)
    simp only [store?, State.register?, hb]
  | setUpval =>
    have ha := hregs i.a ((Instruction.readsRegister_setUpval hop).mpr rfl)
    simp only [store?, State.register?, ha]
  | setTable =>
    have hreads := fun r => (Instruction.readsRegister_setTable hop (r := r)).mpr
    have ha := hregs i.a (hreads _ (Or.inl rfl))
    have hb : operand? I p s' i.b = operand? I p s i.b :=
      operand?_congr fun h => hregs _ (hreads _ (Or.inr (Or.inl ⟨h, rfl⟩)))
    have hc : operand? I p s' i.c = operand? I p s i.c :=
      operand?_congr fun h => hregs _ (hreads _ (Or.inr (Or.inr ⟨h, rfl⟩)))
    simp only [store?, State.register?, ha, hb, hc]
  | setTabUp =>
    have hreads := fun r => (Instruction.readsRegister_setTabUp hop (r := r)).mpr
    have hconsulted : i.consulted = [i.a] := by
      simp [Instruction.consulted, hop, Instruction.upvalues_eq hop]
    have ha := hupvalues i.a (by rw [hconsulted]; exact List.mem_singleton_self _)
    have hb : operand? I p s' i.b = operand? I p s i.b :=
      operand?_congr fun h => hregs _ (hreads _ (Or.inl ⟨h, rfl⟩))
    have hc : operand? I p s' i.c = operand? I p s i.c :=
      operand?_congr fun h => hregs _ (hreads _ (Or.inr ⟨h, rfl⟩))
    simp only [store?, upvalue?, ha, hb, hc]
  | _ => rfl

/-- A store changes only what it writes. -/
theorem perform?_frame (hop : i.opcode? = some op) (h : perform? I p s i op = some s') :
    s'.pc = s.pc + 1 ∧ (∀ r, ¬ i.WritesRegister r → s'.regs r = s.regs r) ∧
      ∀ u, i.assigned? ≠ some u → s'.upvalues u = s.upvalues u := by
  obtain ⟨⟨d, v⟩, hstore, hwrite⟩ := Option.bind_eq_some_iff.mp h
  obtain ⟨s₁, hs₁, rfl⟩ := Option.map_eq_some_iff.mp hwrite
  have hfield : ∀ {t k : V}, d = .field t k → s₁.pc = s.pc ∧ s₁.regs = s.regs ∧
      s₁.upvalues = s.upvalues := by
    rintro t k rfl
    obtain ⟨heap, -, rfl⟩ := Option.map_eq_some_iff.mp hs₁
    exact ⟨rfl, rfl, rfl⟩
  cases op with
  | move =>
    obtain ⟨v', hv', heq⟩ := Option.bind_eq_some_iff.mp hstore
    cases heq
    cases hs₁
    refine ⟨rfl, fun r hr => Function.update_of_ne (fun heq => hr ?_) _ _, fun _ _ => rfl⟩
    exact (Instruction.writesRegister_move hop).mpr heq
  | setUpval =>
    simp only [store?] at hstore
    split at hstore
    · obtain ⟨v', hv', heq⟩ := Option.bind_eq_some_iff.mp hstore
      cases heq
      cases hs₁
      refine ⟨rfl, fun _ _ => rfl, fun u hu => Function.update_of_ne (fun heq => hu ?_) _ _⟩
      rw [Instruction.assigned?, if_pos hop, heq]
    · cases hstore
  | setTable | setTabUp =>
    obtain ⟨t, -, hrest⟩ := Option.bind_eq_some_iff.mp hstore
    obtain ⟨k, -, hrest⟩ := Option.bind_eq_some_iff.mp hrest
    obtain ⟨v', -, heq⟩ := Option.bind_eq_some_iff.mp hrest
    cases heq
    obtain ⟨hpc, hregs, hups⟩ := hfield rfl
    exact ⟨congrArg (· + 1) hpc, fun r _ => congrFun hregs r, fun u _ => congrFun hups u⟩
  | _ => cases hstore

/-! ## Runs of stores -/

/-- The machine carries out a store by performing it. -/
theorem step_eq_perform? (hcode : p.code[s.pc]? = some i) (hop : i.opcode? = some op)
    (hstore : i.isStore = true) : step I p s = perform? I p s i op := by
  have hstep : step I p s = exec I p i s op := by
    simp only [step, hcode, hop, Option.bind_eq_bind, Option.bind_some]
  rw [Instruction.isStore, hop, Option.any_some, decide_eq_true_iff] at hstore
  rw [hstep]
  rcases hstore with rfl | rfl | rfl | rfl <;> rfl

/-- A store that none of the stores before it disturbs is carried out as if it were the
first of them. -/
theorem storeAt?_eq_of_undisturbed {first j : Nat} {states : Nat → State V H}
    (hpc : (states 0).pc = first)
    (hstores : ∀ k < j, ∃ i, p.code[first + k]? = some i ∧ i.isStore = true)
    (hsteps : ∀ k < j, step I p (states k) = some (states (k + 1)))
    (hundisturbed : ∀ k < j, ∀ i i', p.code[first + k]? = some i → p.code[first + j]? = some i' →
      ¬ i.Disturbs i') :
    storeAt? I p (states j) (first + j) = storeAt? I p (states 0) (first + j) := by
  -- the induction is on how far the run has got
  have hrun : ∀ k ≤ j, (states k).pc = first + k ∧
      storeAt? I p (states k) (first + j) = storeAt? I p (states 0) (first + j) := by
    intro k
    induction k with
    | zero => exact fun _ => ⟨hpc, rfl⟩
    | succ k ih =>
      intro hk
      obtain ⟨hpc', hsame⟩ := ih (Nat.le_of_lt hk)
      obtain ⟨i, hi, hstore⟩ := hstores k hk
      obtain ⟨op, hop, -⟩ := (Option.any_eq_true _ _).mp hstore
      have hperform := step_eq_perform? (I := I) (hpc' ▸ hi) hop hstore
      rw [hsteps k hk] at hperform
      obtain ⟨hnext, hregs, hups⟩ := perform?_frame hop hperform.symm
      refine ⟨by omega, Eq.trans ?_ hsame⟩
      unfold storeAt?
      cases hi' : p.code[first + j]? with
      | none => rfl
      | some i' =>
        simp only [Option.bind_eq_bind, Option.bind_some]
        cases hop' : i'.opcode? with
        | none => rfl
        | some op' =>
          have hnot := hundisturbed k hk i i' hi hi'
          refine store?_congr hop' (fun r hr => hregs r fun hw => ?_) fun u hu => hups u ?_
          · exact hnot (Or.inl ⟨r, hw, hr⟩)
          · exact fun ha => hnot (Or.inr ⟨u, ha, hu⟩)
  exact (hrun j (Nat.le_refl j)).2

end Evaluation

end LuaLowering
