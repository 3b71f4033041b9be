import LuaLowering.Proofs.Vetting
import LuaLowering.Proofs.Evaluation.Growth

/-!
# Where the targets of an assignment are

Before anything is stored, an assignment settles where its targets are and loads its
values. Neither changes what a name stands for. The table and the key of a field, and the
name of a global that no operand can reach, are in registers that were free; the values
are in registers above these.
-/

namespace LuaLowering

open LowerM

variable {α : Type} {m : LowerM α} {os : List Offence} {w w' w'' : Workspace}

theorem Vets.ensures {Q : α → Workspace → Prop} (h : Vets m w os Q) : Ensures False m w Q := by
  unfold Vets at h
  unfold Ensures
  split <;> rename_i hrun <;> rw [hrun] at h
  · exact h.2.2
  · trivial
  · exact not_false

/-! ## Names stand for what they stood for -/

namespace Workspace

/-- Code may have been added, and every name stands for the same variable. -/
structure Prepares (w w' : Workspace) : Prop where
  pc : w.draft.pc ≤ w'.draft.pc
  slot? : ∀ x, w'.slot? x = w.slot? x
  knows : ∀ x, w'.knows x = w.knows x
  upvalues : Keeps w.draft.upvalues w'.draft.upvalues
  evolves : w.Evolves w'

theorem Prepares.trans (h₁ : w.Prepares w') (h₂ : w'.Prepares w'') : w.Prepares w'' where
  pc := Nat.le_trans h₁.pc h₂.pc
  slot? := fun x => (h₂.slot? x).trans (h₁.slot? x)
  knows := fun x => (h₂.knows x).trans (h₁.knows x)
  upvalues := h₁.upvalues.trans h₂.upvalues
  evolves := h₁.evolves.trans h₂.evolves

theorem Alike.slot? (h : w.Alike w') (x : String) : w'.slot? x = w.slot? x := by
  have hslot : ∀ (v : Workspace) (i : Nat), (v.draft.locals[i]?).map (·.slot) =
      (v.draft.declarationAt? i).map (·.slot) := by
    intro v i
    rw [Draft.declarationAt?, Option.map_map]
    rfl
  unfold Workspace.slot?
  rw [h.draft.visible]
  cases w.draft.visible.find? x with
  | none => rfl
  | some i => exact (hslot w' i).trans ((congrArg _ (h.draft.declared i)).trans (hslot w i).symm)

end Workspace

/-- A step made of the builder's steps that keeps every name. -/
theorem prepares_of_quiet (hquiet : Quiet m os)
    (hsteps : ∀ {P : (α : Type) → LowerM α → Prop}, Stepwise P → P α m) (w : Workspace) :
    Ensures False m w fun _ w' => w.Prepares w' := by
  have halike := (hquiet.vets w).ensures
  unfold Ensures at halike ⊢
  split <;> rename_i hrun <;> rw [hrun] at halike
  · exact {
      pc := ((hsteps worksOn_lasting.stepwise w).of_ok hrun).pc
      slot? := halike.slot?
      knows := Draft.SameKnown.knows ((hsteps sameKnown_lasting.stepwise w).of_ok hrun)
      upvalues := halike.draft.upvalues
      evolves := (hsteps evolving_stepwise w).of_ok hrun }
  · trivial
  · exact not_false

/-! ## Addresses -/

namespace Workspace

/-- Where the table of globals is. -/
def GlobalsIn (w : Workspace) (upvalues : Array Capture) : Operand → Prop
  | .register r => w.slot? "_ENV" = some r
  | .upvalue u => w.slot? "_ENV" = none ∧ ∃ c, upvalues[u]? = some c ∧ c.name = "_ENV"
  | .constant _ => False

theorem GlobalsIn.widen {upvalues upvalues' : Array Capture} {env : Operand}
    (h : w'.GlobalsIn upvalues env) (hslot : w'.slot? "_ENV" = w.slot? "_ENV")
    (hkeeps : Keeps upvalues upvalues') : w.GlobalsIn upvalues' env := by
  cases env with
  | register r => exact hslot.symm.trans h
  | upvalue u =>
    obtain ⟨hnone, c, hc, hname⟩ := h
    exact ⟨hslot.symm.trans hnone, c, hkeeps u c hc, hname⟩
  | constant => exact h.elim

/-- Where a target is. Its table and key are in registers from `lo` up to `hi`. -/
inductive Locates (w : Workspace) (lo hi : Nat) (upvalues : Array Capture) :
    Target → Address → Prop
  | register {x : String} {r : Nat} (hx : w.slot? x = some r) :
      Locates w lo hi upvalues (.name x) (.register r)
  | upvalue {x : String} {u : Nat} {c : Capture} (hx : w.slot? x = none)
      (hc : upvalues[u]? = some c) (hname : c.name = x) :
      Locates w lo hi upvalues (.name x) (.upvalue u)
  | global {x : String} {env : Operand} {key : Option Nat} (hx : w.slot? x = none)
      (hknows : w.knows x = false) (henv : w.GlobalsIn upvalues env)
      (hkey : ∀ q, key = some q → lo ≤ q ∧ q < hi) :
      Locates w lo hi upvalues (.name x) (.global env x key)
  | field {table key : Expr} {t k : Nat} (ht : lo ≤ t ∧ t < hi) (hk : lo ≤ k ∧ k < hi) :
      Locates w lo hi upvalues (.index table key) (.field t k)

variable {lo hi lo' hi' : Nat} {upvalues upvalues' : Array Capture}

/-- Names are what they were before, and upvalues stay where they are. -/
theorem Locates.widen {t : Target} {address : Address}
    (h : w'.Locates lo' hi' upvalues t address) (hslot : ∀ x, w'.slot? x = w.slot? x)
    (hknows : ∀ x, w'.knows x = w.knows x) (hlo : lo ≤ lo') (hhi : hi' ≤ hi)
    (hkeeps : Keeps upvalues upvalues') : w.Locates lo hi upvalues' t address := by
  cases h with
  | register hx => exact .register (hslot _ ▸ hx)
  | upvalue hx hc hname => exact .upvalue (hslot _ ▸ hx) (hkeeps _ _ hc) hname
  | @global x env key hx hx' henv hkey =>
    refine .global (hslot x ▸ hx) (hknows x ▸ hx') (henv.widen (hslot "_ENV") hkeeps) fun q hq => ?_
    have := hkey q hq
    omega
  | field ht hk => exact .field (by omega) (by omega)

end Workspace

theorem globalsOperand_in :
    Ensures False globalsOperand w fun env w' =>
      w.Grows w' ∧ w'.used = w.used ∧ w.GlobalsIn w'.draft.upvalues env := by
  refine (slotOf?_ensures "_ENV").bind fun r w₁ h => ?_
  obtain ⟨rfl, hr⟩ := h
  cases r with
  | some r => exact ⟨.refl w₁, rfl, hr.symm⟩
  | none =>
    refine (upvalueOf?_writes "_ENV").bind fun u w₂ h => ?_
    obtain ⟨hwrites, hused, hfound⟩ := h
    cases u with
    | some u => exact ⟨hwrites.grows, hused, hr.symm, hfound.2⟩
    | none => exact (ensures_true _ _).bind fun _ _ _ => ensures_reject

/-- Where a name that is a target is. -/
theorem addressOf_name (line : Nat) (x : String) :
    Ensures False (addressOf line (.name x)) w fun address w' =>
      w.used ≤ w'.used ∧ w.Locates w.used w'.used w'.draft.upvalues (.name x) address := by
  refine (slotOf?_ensures x).bind fun r w₁ h => ?_
  obtain ⟨rfl, hr⟩ := h
  cases r with
  | some r => exact ⟨le_rfl, .register hr.symm⟩
  | none =>
    refine (upvalueOf?_writes x).bind fun u w₂ h => ?_
    obtain ⟨hwrites, hused, hfound⟩ := h
    cases u with
    | some u =>
      obtain ⟨-, c, hc, hname⟩ := hfound
      exact ⟨Nat.le_of_eq hused.symm, .upvalue hr.symm hc hname⟩
    | none =>
      -- what comes after the search only adds to the upvalues
      have hlocates : ∀ {w₃ : Workspace} {env : Operand} {key : Option Nat} {hi : Nat},
          w₂.GlobalsIn w₃.draft.upvalues env → (∀ q, key = some q → w₂.used ≤ q ∧ q < hi) →
          w₁.Locates w₁.used hi w₃.draft.upvalues (.name x) (.global env x key) := by
        intro w₃ env key hi henv hkey
        have hthere : w₂.Locates w₂.used hi w₃.draft.upvalues (.name x) (.global env x key) :=
          .global ((hwrites.grows.slot? x).trans hr.symm)
            ((hwrites.grows.knows x).trans hfound) henv hkey
        exact hthere.widen hwrites.grows.slot? hwrites.grows.knows (Nat.le_of_eq hused.symm)
          le_rfl (.refl _)
      refine globalsOperand_in.bind fun env w₃ h => ?_
      obtain ⟨-, hused₃, henv⟩ := h
      refine (constantIndex_writes (.string x)).bind fun i w₄ h => ?_
      obtain ⟨hindex, hused₄, -⟩ := h
      have henv₄ := henv.widen rfl hindex.grows.upvalues
      rw [ensures_options_bind]
      split
      · refine takeRegister_writes.bind fun q w₅ h => ?_
        obtain ⟨htake, rfl, hused₅, -⟩ := h
        refine (loadConstant_writes line w₄.used (.string x)).bind fun _ w₆ h => ?_
        obtain ⟨hload, hused₆, -⟩ := h
        rw [ensures_pure]
        have henv₆ := henv₄.widen rfl (htake.grows.trans hload).upvalues
        refine ⟨by omega, hlocates henv₆ fun q hq => ?_⟩
        obtain rfl := Option.some.inj hq
        omega
      · exact ⟨by omega, hlocates henv₄ nofun⟩

/-- The table and the key of a field are in registers of their own. -/
theorem addressOf_field {table key : Source} (line : Nat) (ht : table.Vetted) (hk : key.Vetted) :
    Ensures False (addressOf line (.index table key)) w fun address w' =>
      ∃ t k, address = .field t k ∧ w.used ≤ t ∧ w.used ≤ k ∧ t < w'.used ∧ k < w'.used := by
  refine (takeRegister_vets w).ensures.bind fun t w₁ h₁ => ?_
  refine ((ht t 1).vets w₁).ensures.bind fun _ w₂ h₂ => ?_
  refine (takeRegister_vets w₂).ensures.bind fun k w₃ h₃ => ?_
  refine ((hk k 1).vets w₃).ensures.bind fun _ w₄ h₄ => ?_
  obtain ⟨-, rfl, hused₁⟩ := h₁
  obtain ⟨-, rfl, hused₃⟩ := h₃
  exact ⟨w.used, w₂.used, rfl, by omega, by omega, by omega, by omega⟩

/-- The targets are located one after another, each above those before it. -/
theorem addressesOf_locates (line : Nat) (targets : List Target) :
    ∀ w : Workspace, Ensures False (addressesOf line (Target.sources targets)) w fun addresses w' =>
      w.Prepares w' ∧ w.used ≤ w'.used ∧
        List.Forall₂ (w.Locates w.used w'.used w'.draft.upvalues) targets addresses := by
  induction targets with
  | nil =>
    intro w
    rw [Target.sources]
    exact ⟨⟨le_rfl, fun _ => rfl, fun _ => rfl, .refl _, .refl w⟩, le_rfl, .nil⟩
  | cons t rest ih =>
    intro w
    have hfirst : ∃ s, Target.sources (t :: rest) = s :: Target.sources rest ∧ s.Vetted ∧
        (∀ {P : (α : Type) → LowerM α → Prop}, Stepwise P → Placeless.LoadsTarget P s) ∧
        Ensures False (addressOf line s) w fun address w' =>
          w.used ≤ w'.used ∧ w.Locates w.used w'.used w'.draft.upvalues t address := by
      cases t with
      | name x =>
        exact ⟨.name x, by rw [Target.sources], trivial, fun _ => trivial, addressOf_name line x⟩
      | index table key =>
        have ht := Expr.lower_vetted table
        have hk := Expr.lower_vetted key
        refine ⟨.index ⟨table, table.lower⟩ ⟨key, key.lower⟩, by rw [Target.sources], ⟨ht, hk⟩,
          fun hP => ⟨hP.expr table, hP.expr key⟩, ?_⟩
        refine (addressOf_field line ht hk).mono fun address w' h => ?_
        obtain ⟨t, k, rfl, hlot, hlok, hhit, hhik⟩ := h
        exact ⟨by omega, .field ⟨hlot, hhit⟩ ⟨hlok, hhik⟩⟩
    obtain ⟨s, hs, hvetted, hsteps, hlocates⟩ := hfirst
    have hprepares := prepares_of_quiet (addressOf_quiet line hvetted)
      (fun hP => hP.addressOf line (hsteps hP)) w
    rw [hs]
    refine (hprepares.and hlocates).bind fun address w₁ h => ?_
    obtain ⟨hprep, hused, hhere⟩ := h
    refine (ih w₁).bind fun addresses w₂ h => ?_
    obtain ⟨hprep', hused', hthere⟩ := h
    rw [ensures_pure]
    refine ⟨hprep.trans hprep', Nat.le_trans hused hused', .cons ?_ (hthere.imp fun u a hua => ?_)⟩
    · exact hhere.widen (fun _ => rfl) (fun _ => rfl) le_rfl hused' hprep'.upvalues
    · exact hua.widen hprep.slot? hprep.knows hused le_rfl (.refl _)

/-! ## Values -/

theorem takeRegisters_ensures (n : Nat) :
    Ensures False (takeRegisters n) w fun _ w' => w'.used = w.used + n := by
  rw [takeRegisters, ensures_view_bind, Registers.takeRun]
  by_cases hfits : Word.fits (w.draft.registers.used + n)
  · rw [if_pos hfits]
    dsimp only [Registers.takeRun?]
    split
    · exact rfl
    · trivial
  · rw [if_neg hfits]
    exact ensures_misuse.mpr not_false

/-- Enough registers are taken for the values. -/
theorem loadAdjusted_used {sources : List Source} (hs : ∀ s ∈ sources, s.Vetted) (n line : Nat) :
    Ensures False (loadAdjusted n sources line) w fun _ w' => w.used + n ≤ w'.used := by
  have heach : ∀ want, Ensures False (loadEach want (withoutTailNils sources)) w fun _ w' =>
      w'.used = w.used + (withoutTailNils sources).length := fun want =>
    ((loadEach_vets want fun s h => hs s (mem_of_mem_withoutTailNils h)) w).ensures.mono
      fun _ _ h => h.2
  unfold loadAdjusted
  dsimp only
  split
  · exact (heach _).mono fun _ _ h => by omega
  · split
    · refine (heach _).bind fun _ w₁ h₁ => (takeRegisters_ensures _).bind fun _ w₂ h₂ => ?_
      rw [ensures_pure]
      omega
    · refine (heach _).bind fun _ w₁ h₁ => (takeRegisters_ensures _).bind fun first w₂ h₂ => ?_
      refine ((Emit.loadNil_neutral line first _).vets w₂).ensures.mono fun _ w₃ h₃ => ?_
      omega

end LuaLowering
