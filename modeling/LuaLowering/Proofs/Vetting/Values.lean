import Mathlib.Data.List.TakeWhile
import LuaLowering.Proofs.Vetting.Steps

/-!
# Vetting operands and lists of values

The offences of an expression are those of the functions in it. An operand that
is read where it already is has none, since a literal or a name holds no function,
and for the same reason the nils at the end of a list can be left out.
-/

namespace LuaLowering

open LowerM

variable {w : Workspace} {e : Expr} {s : Source} {sources : List Source}

/-! ## Operands -/

/-- Loading a source is neutral, and vets the expression. -/
def Source.Vetted (s : Source) : Prop := ∀ a want, Neutral (s.load a want) s.exp.offences

/-- The offences of a list of sources. -/
def Source.offencesIn (sources : List Source) : List Offence :=
  sources.flatMap (·.exp.offences)

theorem Expr.offences_literal {k : Constant} (h : e.literal? = some k) : e.offences = [] := by
  cases e <;> first | rfl | cases h

theorem Expr.offences_isNil (h : e.isNil = true) : e.offences = [] := by
  cases e <;> first | rfl | cases h

theorem Source.vetted_constant (e : Expr) (k : Constant) (h : e.literal? = some k) :
    (Source.constant e k).Vetted := by
  intro a want
  show Neutral _ e.offences
  rw [Expr.offences_literal h]
  refine ⟨fun w => ?_⟩
  exact (Emit.loadConstant_neutral w.draft.line a k).vets w

theorem Source.vetted_string (s : String) : (Source.string s).Vetted := vetted_constant _ _ rfl

theorem constantOperand?_vets (e : Expr) (w : Workspace) :
    Vets (constantOperand? e) w [] fun o w' => (w.Alike w' ∧ w'.used = w.used) ∧
      ∀ found, o = some found → e.offences = [] ∧ ∀ r, found ≠ .register r := by
  unfold constantOperand?
  cases hk : e.literal? with
  | none =>
    refine vets_pure.mpr ⟨rfl, ⟨.refl w, rfl⟩, ?_⟩
    intro found hfound
    cases hfound
  | some k =>
    refine ((constantIndex_neutral k).vets w).andThen fun i w₁ h₁ => ?_
    rw [vets_options_bind]
    refine vets_pure.mpr ⟨rfl, h₁, ?_⟩
    intro found hfound
    refine ⟨Expr.offences_literal hk, fun r hr => ?_⟩
    subst hr
    split at hfound <;> cases hfound

theorem nameOperand?_vets (e : Expr) (kinds : OperandKinds) (w : Workspace) :
    Vets (nameOperand? e kinds) w [] fun o w' => (w.Alike w' ∧ w'.used = w.used) ∧
      ∀ found, o = some found → ∃ x, e = .name x := by
  have hlocal : ∀ x, Neutral (if kinds.registers then slotOf? x else pure none) [] := by
    intro x
    split
    · exact slotOf?_neutral x
    · exact neutral_pure none
  have houter : ∀ x, Neutral (if kinds.upvalues then upvalueOf? x else pure none) [] := by
    intro x
    split
    · exact upvalueOf?_neutral x
    · exact neutral_pure none
  unfold nameOperand?
  split
  · next x =>
    refine ((hlocal x).vets w).andThen fun r w₁ h₁ => ?_
    cases r with
    | some r => exact vets_pure.mpr ⟨rfl, h₁, fun _ _ => ⟨x, rfl⟩⟩
    | none =>
      refine ((houter x).vets w₁).andThen fun u w₂ h₂ => ?_
      have hboth : w.Alike w₂ ∧ w₂.used = w.used := ⟨h₁.1.trans h₂.1, h₂.2.trans h₁.2⟩
      cases u <;> exact vets_pure.mpr ⟨rfl, hboth, fun _ _ => ⟨x, rfl⟩⟩
  · refine vets_pure.mpr ⟨rfl, ⟨.refl w, rfl⟩, ?_⟩
    intro found hfound
    cases hfound

/-- An operand takes no register, and then it is a local, a constant or an outer
variable, or it takes the next one. -/
theorem operand_vets (hs : s.Vetted) (kinds : OperandKinds) (w : Workspace) :
    Vets (operand s kinds) w s.exp.offences fun o w' => w.Alike w' ∧
      ((w'.used = w.used ∧ ∀ r, o = .register r → ∃ x, s.exp = .name x) ∨
        w'.used = w.used + 1 ∧ o = .register w.used) := by
  have hconst : Vets (if kinds.constants then constantOperand? s.exp else pure none) w []
      fun o w' => (w.Alike w' ∧ w'.used = w.used) ∧
        ∀ found, o = some found → s.exp.offences = [] ∧ ∀ r, found ≠ .register r := by
    split
    · exact constantOperand?_vets s.exp w
    · refine vets_pure.mpr ⟨rfl, ⟨.refl w, rfl⟩, ?_⟩
      intro found hfound
      cases hfound
  unfold operand
  refine hconst.andThen fun o w₁ h₁ => ?_
  obtain ⟨⟨ha₁, hu₁⟩, hfound⟩ := h₁
  cases o with
  | some o =>
    obtain ⟨hnone, hreg⟩ := hfound o rfl
    exact vets_pure.mpr ⟨hnone, ha₁, Or.inl ⟨hu₁, fun r hr => absurd hr (hreg r)⟩⟩
  | none =>
    refine (nameOperand?_vets s.exp kinds w₁).andThen fun o w₂ h₂ => ?_
    obtain ⟨⟨ha₂, hu₂⟩, hname⟩ := h₂
    cases o with
    | some o =>
      obtain ⟨x, hx⟩ := hname o rfl
      refine vets_pure.mpr ⟨by rw [hx, Expr.offences], ha₁.trans ha₂, Or.inl ⟨?_, ?_⟩⟩
      · exact hu₂.trans hu₁
      · exact fun _ _ => ⟨x, hx⟩
    | none =>
      refine (takeRegister_vets w₂).andThen fun r w₃ h₃ => ?_
      obtain ⟨ha₃, rfl, hu₃⟩ := h₃
      refine ((hs _ 1).vets w₃).finally fun _ w₄ h₄ => ?_
      obtain ⟨ha₄, hu₄⟩ := h₄
      refine vets_pure.mpr ⟨rfl, ha₁.trans (ha₂.trans (ha₃.trans ha₄)), Or.inr ⟨?_, ?_⟩⟩
      · omega
      · rw [hu₂, hu₁]

theorem operand_quiet (hs : s.Vetted) (kinds : OperandKinds) :
    Quiet (operand s kinds) s.exp.offences :=
  ⟨fun w => (operand_vets hs kinds w).mono fun _ _ h => h.1⟩

/-! ## Lists of values -/

theorem loadEach_vets (n : Int) (hs : ∀ s ∈ sources, s.Vetted) :
    ∀ w, Vets (loadEach n sources) w (Source.offencesIn sources) fun _ w' =>
      w.Alike w' ∧ w'.used = w.used + sources.length := by
  induction sources with
  | nil => exact fun w => vets_pure.mpr ⟨rfl, .refl w, rfl⟩
  | cons s rest ih =>
    intro w
    have hhead := hs s List.mem_cons_self
    have htail := ih fun t ht => hs t (List.mem_cons_of_mem _ ht)
    cases rest with
    | nil =>
      refine (takeRegister_vets w).andThen fun r w₁ h₁ => ?_
      rw [Source.offencesIn, List.flatMap_singleton]
      refine ((hhead r n).vets w₁).mono fun _ w₂ h₂ => ⟨h₁.1.trans h₂.1, ?_⟩
      rw [h₂.2, h₁.2.2, List.length_singleton]
    | cons t others =>
      rw [loadEach]
      · refine (takeRegister_vets w).andThen fun r w₁ h₁ => ?_
        refine ((hhead r 1).vets w₁).bind fun _ w₂ h₂ => (htail w₂).mono fun _ w₃ h₃ => ?_
        refine ⟨h₁.1.trans (h₂.1.trans h₃.1), ?_⟩
        rw [h₃.2, h₂.2, h₁.2.2, List.length_cons (a := s)]
        omega
      · exact fun h => by cases h

theorem loadAll_vets (hs : ∀ s ∈ sources, s.Vetted) (w : Workspace) :
    Vets (loadAll sources) w (Source.offencesIn sources) fun _ w' =>
      w.Alike w' ∧ w'.used = w.used + sources.length := by
  unfold loadAll
  split <;> exact (loadEach_vets _ hs w).finally fun _ w₁ h₁ => vets_pure.mpr ⟨rfl, h₁⟩

/-- The nils at the end of a list have no offences. -/
theorem offencesIn_withoutTailNils (sources : List Source) :
    Source.offencesIn (withoutTailNils sources) = Source.offencesIn sources := by
  have hsplit : sources = withoutTailNils sources ++
      (sources.reverse.takeWhile (·.exp.isNil)).reverse := by
    rw [withoutTailNils, ← List.reverse_append, List.takeWhile_append_dropWhile,
      List.reverse_reverse]
  have hnils : Source.offencesIn (sources.reverse.takeWhile (·.exp.isNil)).reverse = [] := by
    refine List.flatMap_eq_nil_iff.mpr fun s hs => ?_
    have hnil := List.mem_takeWhile_imp (List.mem_reverse.mp hs)
    exact Expr.offences_isNil hnil
  conv_rhs => rw [hsplit]
  rw [Source.offencesIn, Source.offencesIn, List.flatMap_append]
  rw [Source.offencesIn] at hnils
  rw [hnils, List.append_nil]

theorem mem_of_mem_withoutTailNils (h : s ∈ withoutTailNils sources) : s ∈ sources :=
  List.mem_reverse.mp ((List.dropWhile_sublist _).subset (List.mem_reverse.mp h))

theorem loadAdjusted_quiet (hs : ∀ s ∈ sources, s.Vetted) (n line : Nat) :
    Quiet (loadAdjusted n sources line) (Source.offencesIn sources) := by
  have hkept : ∀ s ∈ withoutTailNils sources, s.Vetted :=
    fun s h => hs s (mem_of_mem_withoutTailNils h)
  have hall : ∀ k, Quiet (loadEach k (withoutTailNils sources)) (Source.offencesIn sources) := by
    intro k
    rw [← offencesIn_withoutTailNils]
    exact ⟨fun w => (loadEach_vets k hkept w).mono fun _ _ h => h.1⟩
  unfold loadAdjusted
  dsimp only
  split
  · exact hall _
  · split
    · exact (hall _).finally fun _ => (takeRegisters_quiet _).andThen fun _ =>
        (neutral_pure ()).quiet
    · exact (hall _).finally fun _ => (takeRegisters_quiet _).andThen fun _ =>
        (Emit.loadNil_neutral ..).quiet

end LuaLowering
