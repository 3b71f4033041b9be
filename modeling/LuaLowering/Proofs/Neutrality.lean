import LuaLowering.Proofs.Vetting

/-!
# Lowering is neutral

Whatever state the builder is in, lowering a construct gives back the registers
that it took, leaves the scopes that it opened, and brings back the names that it
hid. An expression leaves no trace of this kind at all, and a statement only the
locals that it declares in the scope around it, one register for each.
-/

namespace LuaLowering

variable {w w' : Workspace} {names : List String}

/-- One register was taken for each of some names, as many scopes are open as
before, and any other name has the register that it had. -/
structure Workspace.Balanced (names : List String) (w w' : Workspace) : Prop where
  used : w'.used = w.used + names.length
  depth : w'.draft.depth = w.draft.depth
  slots : ∀ x ∉ names, ∀ r, slotOf? x w = .ok r w → slotOf? x w' = .ok r w'

/-- What asking for the register of a name comes to. -/
theorem slotOf?_eq (x : String) (w : Workspace) :
    slotOf? x w = match w.draft.reading x with
      | none => .ok none w
      | some i =>
        match w.draft.declarationAt? i with
        | some v => .ok (some v.slot) w
        | none => .error (.misused (.noLocalAt i)) w := by
  unfold slotOf? localAt Draft.reading Draft.declarationAt?
  simp only [bind, EStateM.bind, LowerM.view]
  cases w.draft.visible.find? x with
  | none => rfl
  | some i =>
    dsimp only [bind, EStateM.bind, LowerM.view]
    cases w.draft.locals[i]? <;> rfl

theorem Workspace.Declares.balanced (h : w.Declares names w') : w.Balanced names w' := by
  obtain ⟨new, hadds, hnames⟩ := h
  have hlength : new.length = names.length := by
    rw [← List.length_map (·.1), hnames, List.length_reverse]
  refine ⟨by rw [hadds.used, hlength], ?_, fun x hx r hr => ?_⟩
  · have hframes := congrArg List.length hadds.frames
    rw [Scope.frames, Scope.frames, List.length_map, List.length_map,
      Scope.length_addLocals] at hframes
    exact hframes
  · have hsame : w'.draft.reading x = w.draft.reading x := by
      refine hadds.names.apply_eq ?_
      rw [hnames, List.mem_reverse]
      exact hx
    rw [slotOf?_eq] at hr ⊢
    rw [hsame]
    cases hread : w.draft.reading x with
    | none =>
      rw [hread] at hr
      cases hr
      rfl
    | some i =>
      rw [hread] at hr
      dsimp only at hr ⊢
      cases hv : w.draft.declarationAt? i with
      | none =>
        rw [hv] at hr
        cases hr
      | some v =>
        rw [hv] at hr
        cases hr
        rw [hadds.declared i v hv]

theorem Extends.balanced {m : LowerM Unit} {os : Bool → List Offence} (h : Extends m os names)
    (hrun : m w = .ok () w') : w.Balanced names w' := ((h.vets w).of_ok hrun).2.balanced

theorem Neutral.balanced {m : LowerM Unit} {os : List Offence} (h : Neutral m os)
    (hrun : m w = .ok () w') : w.Balanced [] w' := h.extends.balanced hrun

/-- What lowering each kind of construct from a workspace does to its registers,
scopes and names. -/
structure Workspace.Balances (w : Workspace) : Prop where
  statement : ∀ (s : Stat) w', s.lower w = .ok () w' → w.Balanced s.declares w'
  block : ∀ (b : Block) w', b.lower w = .ok () w' → w.Balanced b.declares w'
  expression : ∀ (e : Expr) a want w', e.lower a want w = .ok () w' → w.Balanced [] w'
  call : ∀ (c : Call) a want w', c.lower a want w = .ok () w' → w.Balanced [] w'
  tailCall : ∀ (c : Call) a w', c.lowerTail a w = .ok () w' → w.Balanced [] w'
  function : ∀ (f : FunctionBody) a w', f.lower a w = .ok () w' → w.Balanced [] w'
  operand : ∀ (e : Expr) kinds o w', operand e.source kinds w = .ok o w' →
    w'.used = w.used ∨ w'.used = w.used + 1 ∧ o = .register w.used

/-- Lowering is neutral from every workspace. -/
theorem lowering_balances (w : Workspace) : w.Balances where
  statement := fun s _ hrun => (Stat.lower_extends s).balanced hrun
  block := fun b _ hrun => (Block.lower_extends b).balanced hrun
  expression := fun e a want _ hrun => (Expr.lower_vetted e a want).balanced hrun
  call := fun c a want _ hrun => by
    rw [Call.lower_eq] at hrun
    exact (finishCall_neutral (Call.prepare_neutral c) c.line a want).balanced hrun
  tailCall := fun c a _ hrun =>
    (finishTailCall_neutral (Call.prepare_neutral c) c.line a).balanced hrun
  function := fun f a _ hrun => (FunctionBody.lower_neutral f a).balanced hrun
  operand := fun e kinds _ _ hrun => by
    obtain ⟨-, -, h⟩ := (operand_vets (Expr.lower_vetted e) kinds w).of_ok hrun
    rcases h with ⟨hused, -⟩ | ⟨hused, hplace⟩
    · exact Or.inl hused
    · exact Or.inr ⟨hused, hplace⟩

/-- A function that is declared and captures itself. -/
theorem lowering_balances_of_function :
    let s : Stat := .declareFunction "f" ⟨["x"], false, ⟨[], some [.name "f"], 2⟩, 1, 2⟩
    ∃ w', s.lower (.main {}) = .ok () w' ∧ w'.used = 1 := by
  intro s
  have hok : (match s.lower (.main {}) with | .ok _ _ => true | .error _ _ => false) = true := by
    decide +kernel
  cases hrun : s.lower (.main {}) with
  | ok _ w' => exact ⟨w', rfl, ((lowering_balances _).statement s w' hrun).used⟩
  | error e w' =>
    rw [hrun] at hok
    cases hok

end LuaLowering
