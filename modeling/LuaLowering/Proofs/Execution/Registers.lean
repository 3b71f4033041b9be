import LuaLowering.Proofs.Shape.Opened
import LuaLowering.Proofs.Execution.Semantics

/-!
# Where the variables of a chunk are

The registers of the open locals hold the values that the source has for them.
A loop also keeps state of its own in registers, which the source does not know
of: those registers have to hold what the loop left in them, so that a body can
be run without a word about the loop around it.
-/

namespace LuaLowering

/-- The registers agree with the locals of the source, the latest first. A hidden
local has no counterpart there, and its register is as given. -/
inductive Holds (S : Site) (hidden regs : Nat → Value) :
    List Nat → List (String × Value) → Prop
  | nil : Holds S hidden regs [] []
  | hidden {i : Nat} {is : List Nat} {ρ : List (String × Value)} {v : Local}
      (hv : S.draft.locals[i]? = some v) (hslot : v.slot = is.length)
      (hname : v.name.toList.head? = some '(') (hreg : regs is.length = hidden is.length)
      (hrest : Holds S hidden regs is ρ) : Holds S hidden regs (i :: is) ρ
  | visible {i : Nat} {is : List Nat} {ρ : List (String × Value)} {v : Local}
      (hv : S.draft.locals[i]? = some v) (hslot : v.slot = is.length) (hname : PlainName v.name)
      (hrest : Holds S hidden regs is ρ) :
      Holds S hidden regs (i :: is) ((v.name, regs is.length) :: ρ)

variable {S : Site} {hidden regs : Nat → Value} {is : List Nat} {ρ : List (String × Value)}
  {x : String} {hidden' regs' : Nat → Value} {v : Local} {m : Memory} {base n startPc : Nat}
  {vs : List Value} {names : List String} {P P' : Point}

namespace Holds

theorem congr (h : Holds S hidden regs is ρ) (hregs : ∀ r < is.length, regs' r = regs r)
    (hhid : ∀ r < is.length, hidden' r = hidden r) : Holds S hidden' regs' is ρ := by
  induction h with
  | nil => exact .nil
  | @hidden i is ρ v hv hslot hname hreg _ ih =>
    simp only [List.length_cons] at hregs hhid
    refine .hidden hv hslot hname ?_
      (ih (fun r hr => hregs r (by omega)) fun r hr => hhid r (by omega))
    rw [hregs _ (by omega), hhid _ (by omega), hreg]
  | @visible i is ρ v hv hslot hname _ ih =>
    simp only [List.length_cons] at hregs hhid
    rw [← hregs is.length (by omega)]
    exact .visible hv hslot hname
      (ih (fun r hr => hregs r (by omega)) fun r hr => hhid r (by omega))

theorem frame (h : Holds S hidden regs is ρ) (hregs : ∀ r < is.length, regs' r = regs r) :
    Holds S hidden regs' is ρ :=
  h.congr hregs fun _ _ => rfl

/-- A source name is never that of a hidden local. -/
theorem ne_of_hidden (hname : v.name.toList.head? = some '(') (hx : x.toList.head? ≠ some '(') :
    v.name ≠ x := by
  rintro rfl
  exact hx hname

section

variable (h : Holds S hidden regs is ρ)

include h

/-- The register of a name holds its value. -/
theorem lookup_eq (hx : PlainName x) : ρ.lookup x = (S.local? is x).map fun v => regs v.slot := by
  induction h with
  | nil => rfl
  | hidden hv _ hname _ _ ih => rw [Site.local?_cons hv, if_neg (ne_of_hidden hname hx.2), ih]
  | @visible i is ρ v hv hslot _ _ ih =>
    rw [Site.local?_cons hv, List.lookup_cons]
    by_cases heq : v.name = x
    · simp [heq, hslot]
    · have hne : (x == v.name) = false := by simpa using Ne.symm heq
      simp [heq, hne, ih]

theorem slot_lt (hv : S.local? is x = some v) : v.slot < is.length := by
  induction h with
  | nil => cases hv
  | hidden hi hslot _ _ _ ih | visible hi hslot _ _ ih =>
    rw [Site.local?_cons hi] at hv
    split at hv
    · obtain rfl := Option.some.inj hv
      rw [hslot, List.length_cons]
      omega
    · exact Nat.lt_succ_of_lt (ih hv)

/-- No local stands for the globals. -/
theorem globals_none : S.local? is "_ENV" = none := by
  induction h with
  | nil => rfl
  | hidden hv _ hname _ _ ih =>
    rw [Site.local?_cons hv, if_neg (ne_of_hidden hname (by decide)), ih]
  | visible hv _ hname _ ih => rw [Site.local?_cons hv, if_neg hname.1, ih]

/-- Storing into the register of a name assigns to it. -/
theorem store (hx : PlainName x) (hv : S.local? is x = some v) (u : Value) :
    Holds S hidden (Function.update regs v.slot u) is (Memory.setLatest x u ρ) := by
  induction h with
  | nil => cases hv
  | @hidden i is ρ w hw hslot hname hreg hrest ih =>
    rw [Site.local?_cons hw, if_neg (ne_of_hidden hname hx.2)] at hv
    have hlt := hrest.slot_lt hv
    refine .hidden hw hslot hname ?_ (ih hv)
    rwa [Function.update_of_ne (by omega)]
  | @visible i is ρ w hw hslot hname hrest ih =>
    rw [Site.local?_cons hw] at hv
    by_cases heq : w.name = x
    · rw [if_pos heq] at hv
      obtain rfl := Option.some.inj hv
      have hhere : Function.update regs w.slot u is.length = u := by
        rw [hslot, Function.update_self]
      have hrest' : Holds S hidden (Function.update regs w.slot u) is ρ :=
        hrest.frame fun r hr => Function.update_of_ne (by omega) _ _
      have hnow := Holds.visible hw hslot hname hrest'
      rw [hhere] at hnow
      rwa [Memory.setLatest, if_pos heq]
    · rw [if_neg heq] at hv
      have hlt := hrest.slot_lt hv
      have hnow := Holds.visible hw hslot hname (ih hv)
      rw [Function.update_of_ne (by omega)] at hnow
      simpa [Memory.setLatest, heq] using hnow

end

/-! ## Leaving a scope -/

theorem suffix {more : List Nat} (h : Holds S hidden regs (more ++ is) ρ) :
    ∃ front rest, ρ = front ++ rest ∧ Holds S hidden regs is rest := by
  induction more generalizing ρ with
  | nil => exact ⟨[], ρ, rfl, h⟩
  | cons i more ih =>
    cases h with
    | hidden _ _ _ _ hrest => exact ih hrest
    | visible _ _ _ hrest =>
      obtain ⟨front, rest, rfl, h⟩ := ih hrest
      exact ⟨_ :: front, rest, rfl, h⟩

/-- Which locals the source knows of depends on their names only. -/
theorem length_eq {ρ' : List (String × Value)} (h : Holds S hidden regs is ρ)
    (h' : Holds S hidden' regs' is ρ') : ρ'.length = ρ.length := by
  induction h generalizing ρ' with
  | nil => cases h'; rfl
  | hidden hv _ hname _ _ ih =>
    cases h' with
    | hidden _ _ _ _ hrest => exact ih hrest
    | visible hv' _ hname' _ =>
      obtain rfl := Option.some.inj (hv.symm.trans hv')
      exact absurd hname hname'.2
  | visible hv _ hname _ ih =>
    cases h' with
    | hidden hv' _ hname' _ _ =>
      obtain rfl := Option.some.inj (hv.symm.trans hv')
      exact absurd hname' hname.2
    | visible _ _ _ hrest => rw [List.length_cons, List.length_cons, ih hrest]

theorem leave {is' : List Nat} {m' : Memory} (h : Holds S hidden regs is m.locals)
    (h' : Holds S hidden' regs' is' m'.locals) (hsub : is <:+ is') :
    Holds S hidden' regs' is (m'.leave m).locals := by
  obtain ⟨more, rfl⟩ := hsub
  obtain ⟨front, rest, hρ, hrest⟩ := h'.suffix
  have hlen := h.length_eq hrest
  have hdrop : (m'.leave m).locals = rest := by
    rw [Memory.leave, hρ, List.length_append, hlen, Nat.add_sub_cancel, List.drop_left]
  rwa [hdrop]

end Holds

/-! ## Rows of registers -/

/-- The registers from `base` on hold `n` values; where there are fewer, the rest
are nil. -/
def InRow (regs : Nat → Value) (base n : Nat) (vs : List Value) : Prop :=
  ∀ k < n, regs (base + k) = vs.getD k .nil

theorem InRow.head (h : InRow regs base (n + 1) vs) : regs base = vs.headD .nil := by
  have hfirst := h 0 (Nat.succ_pos _)
  cases vs <;> simpa using hfirst

theorem InRow.tail (h : InRow regs base (n + 1) vs) : InRow regs (base + 1) n vs.tail := by
  intro k hk
  have hnext := h (k + 1) (by omega)
  rw [Nat.add_assoc, Nat.add_comm 1 k, hnext]
  cases vs <;> simp

/-! ## Declarations -/

/-- Values in a row of registers become locals. -/
theorem Declares.holds (h : Declares S startPc names P P') (hplain : ∀ x ∈ names, PlainName x)
    (hregs : InRow regs P.opened.length names.length vs)
    (hm : Holds S hidden regs P.opened m.locals) :
    Holds S hidden regs P'.opened (m.declare names vs).locals := by
  induction names generalizing P m vs with
  | nil =>
    obtain rfl : P' = P := h
    exact hm
  | cons x rest ih =>
    obtain ⟨⟨v, hv, rfl, hslot, -⟩, -, hrest⟩ := h
    have hnow := Holds.visible hv hslot (hplain _ List.mem_cons_self) hm
    rw [hregs.head] at hnow
    exact ih hrest (fun y hy => hplain y (List.mem_cons_of_mem _ hy)) hregs.tail hnow

/-- Hidden locals change nothing for the source. -/
theorem Declares.holds_hidden (h : Declares S startPc names P P')
    (hnames : ∀ x ∈ names, x.toList.head? = some '(')
    (hregs : ∀ k < names.length, regs (P.opened.length + k) = hidden (P.opened.length + k))
    (hm : Holds S hidden regs P.opened ρ) : Holds S hidden regs P'.opened ρ := by
  induction names generalizing P with
  | nil =>
    obtain rfl : P' = P := h
    exact hm
  | cons x rest ih =>
    obtain ⟨⟨v, hv, rfl, hslot, -⟩, -, hrest⟩ := h
    have hfirst := hregs 0 (by simp)
    refine ih hrest (fun y hy => hnames y (List.mem_cons_of_mem _ hy)) (fun k hk => ?_)
      (.hidden hv hslot (hnames _ List.mem_cons_self) hfirst hm)
    have hnext := hregs (k + 1) (by simpa using hk)
    rwa [List.length_cons, Nat.add_assoc, Nat.add_comm 1 k]

/-- The registers of hidden locals are as given for as long as they are open. -/
theorem Declares.hidden_eq (h : Declares S startPc names P P')
    (hnames : ∀ x ∈ names, x.toList.head? = some '(') (hm : Holds S hidden regs P'.opened ρ) :
    ∀ k < names.length, regs (P.opened.length + k) = hidden (P.opened.length + k) := by
  induction names generalizing P with
  | nil => simp
  | cons x rest ih =>
    obtain ⟨⟨v, hv, rfl, hslot, -⟩, -, hrest⟩ := h
    have hlater := ih hrest fun y hy => hnames y (List.mem_cons_of_mem _ hy)
    intro k hk
    cases k with
    | zero =>
      obtain ⟨more, hmore⟩ := hrest.opens.suffix
      rw [← hmore] at hm
      obtain ⟨-, rest, -, hnow⟩ := hm.suffix
      cases hnow with
      | hidden _ _ _ hreg _ => exact hreg
      | visible hv' _ hname _ =>
        obtain rfl := Option.some.inj (hv.symm.trans hv')
        exact absurd (hnames _ List.mem_cons_self) hname.2
    | succ k =>
      have hnext := hlater k (by simpa using hk)
      rwa [List.length_cons, Nat.add_assoc, Nat.add_comm 1 k] at hnext

end LuaLowering
