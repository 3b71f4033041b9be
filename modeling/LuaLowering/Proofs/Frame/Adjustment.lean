import Mathlib.Data.List.GetD
import LuaLowering.Proofs.Frame.Activation
import LuaLowering.Proofs.Lowering

/-!
# What a list of values leaves in the registers

A list of expressions is loaded for some number of targets, which stand in a row of
registers. Each expression gives one value to its target, and a call or `...` at the end
gives as many as are missing; what is missing even then is nil.

The literal nils that end a list are not loaded. In most lists that makes no difference,
for their targets are filled with nil anyway. It does if a call or `...` stands before
them: with the nils gone it comes last, and its further results go to their targets.
-/

namespace LuaLowering

variable {V : Type} {nil : V} {S : Site} {opened : List Nat} {floor a used : Nat} {want : Int}
  {lo mid hi : Mark} {given : List (List V)} {i r : Nat} {e : Expr} {es : List Expr}
  {lastWant : Int}

/-! ## Lists of lists of values -/

/-- The values of a list whose expressions give some values each: the first of each, and
all of the last. -/
def spread (nil : V) : List (List V) → List V
  | [] => []
  | [vs] => vs
  | vs :: rest => vs.headD nil :: spread nil rest

namespace Activation

/-- Running the code of an expression gives some values: all those of a call or of `...`,
which are known at its last instruction, or else the one that is then in its register. -/
inductive Yields (S : Site) (floor : Nat) (nil : V) (e : Expr) (r lo hi : Nat)
    (s s' : Activation V) : List V → Prop
  | one (hsingle : e.isMulti = false) (hrun : Run S floor nil lo hi s s') :
      Yields S floor nil e r lo hi s s' [s'.registers r]
  | all {s₁ : Activation V} {given : List V} {i : Instruction} (hmulti : e.isMulti = true)
      (hrun : Run S floor nil lo hi s s₁) (hlast : s₁.pc + 1 = hi) (hat : S.Has s₁.pc i)
      (hop : i.opcode? = some .call ∨ i.opcode? = some .vararg)
      (hstep : Step S floor nil s₁ given s') : Yields S floor nil e r lo hi s s' given

/-- Running the code of some expressions, which go into registers in a row, gives some
values of each. -/
inductive YieldsEach (S : Site) (floor : Nat) (nil : V) (opened : List Nat) :
    List Expr → Nat → Mark → Mark → Activation V → Activation V → List (List V) → Prop
  | nil {r : Nat} {lo : Mark} {s : Activation V} : YieldsEach S floor nil opened [] r lo lo s s []
  | cons {e : Expr} {rest : List Expr} {r : Nat} {want : Int} {lo mid hi : Mark}
      {s s₁ s' : Activation V} {vs : List V} {given : List (List V)}
      (hcode : e.shape S opened r want (r + 1) lo mid) (hmid : s₁.pc = mid.pc)
      (hfirst : Yields S floor nil e r lo.pc mid.pc s s₁ vs)
      (hrest : YieldsEach S floor nil opened rest (r + 1) mid hi s₁ s' given) :
      YieldsEach S floor nil opened (e :: rest) r lo hi s s' (vs :: given)

theorem Run.mono {lo hi lo' hi' : Nat} {s s' : Activation V} (h : Run S floor nil lo hi s s')
    (hlo : lo' ≤ lo) (hhi : hi ≤ hi') : Run S floor nil lo' hi' s s' := by
  induction h with
  | refl => exact .refl
  | step _ hge hlt hstep ih =>
    exact .step ih (Nat.le_trans hlo hge) (Nat.lt_of_lt_of_le hlt hhi) hstep

variable {s s' : Activation V}

/-- The last instruction of a call or of `...` leaves the values that are asked for. -/
theorem Run.yields_all {asked : Request} {count : Nat} (hmulti : e.isMulti = true)
    (hfirst : S.Region a lo.pc mid.pc) (hlast : S.Region a mid.pc hi.pc)
    (hcode : S.Writes asked mid hi)
    (hop : asked.word.opcode? = some .call ∨ asked.word.opcode? = some .vararg)
    (hleaves : ∀ {given registers}, asked.word.Deposits nil given registers →
      ∀ k < count, registers (a + k) = given.getD k nil) (hrun : Run S floor nil lo.pc hi.pc s s')
    (hstart : s.pc = lo.pc) (hend : s'.pc = hi.pc) :
    ∃ given, Yields S floor nil e a lo.pc hi.pc s s' given ∧
      ∀ k < count, s'.registers (a + k) = given.getD k nil := by
  obtain ⟨s₁, hmid, hrun₁, hrun₂⟩ := hrun.split hfirst hlast hstart hend
  obtain ⟨hat, rfl⟩ := hcode
  obtain ⟨given, hstep⟩ := hrun₂.single hlast hmid hend
  rw [← hmid] at hat
  have hbefore : Run S floor nil lo.pc mid.next.pc s s₁ :=
    hrun₁.mono le_rfl (Nat.le_succ _)
  exact ⟨given, .all hmulti hbefore (by rw [hmid]; rfl) hat hop hstep,
    hleaves (hstep.deposits hat)⟩

/-- The field that says how many values are wanted, as it is read. -/
theorem countCode_mod (hwant : 0 ≤ want) (hlt : want < 0x1ff) :
    countCode want % 0x200 = want.toNat + 1 := by
  have hsucc : (want + 1).toNat = want.toNat + 1 := by omega
  rw [countCode_eq (by omega) hlt, hsucc]
  exact Nat.mod_eq_of_lt (by omega)

theorem Run.yields_call {c : Call} (hmax : S.Framed)
    (hroom : S.Room (a + 1)) (hwant : 0 ≤ want) (hlt : want < 0x1ff)
    (hcode : CallIs S opened c.calleePart c.method c.argParts a want (a + 1) lo hi)
    (hrun : Run S floor nil lo.pc hi.pc s s') (hstart : s.pc = lo.pc) (hend : s'.pc = hi.pc) :
    ∃ vs, Yields S floor nil (.call c) a lo.pc hi.pc s s' vs ∧
      ∀ k < want.toNat, s'.registers (a + k) = vs.getD k nil := by
  have ha := hroom.lt hmax
  obtain ⟨n, mid, hlaid, hcall⟩ := hcode
  refine hrun.yields_all rfl (hlaid.region c.callee_stays c.args_stay hmax hroom)
    (.abc hcall rfl ha le_rfl) hcall (Or.inl (Instruction.opcode?_abc ..)) ?_ hstart hend
  exact fun hleaves k hk => hleaves.call ha (by rw [countCode_mod hwant hlt]; omega)

theorem Run.yields_vararg (ha : a < 0x100) (hwant : 0 ≤ want) (hlt : want < 0x1ff)
    (hcode : S.Writes (.abc .vararg a (countCode want) 0) lo hi)
    (hrun : Run S floor nil lo.pc hi.pc s s') (hstart : s.pc = lo.pc) (hend : s'.pc = hi.pc) :
    ∃ vs, Yields S floor nil .vararg a lo.pc hi.pc s s' vs ∧
      ∀ k < want.toNat, s'.registers (a + k) = vs.getD k nil := by
  refine hrun.yields_all rfl (.refl a _) (.abc hcode rfl ha le_rfl) hcode
    (Or.inr (Instruction.opcode?_abc ..)) ?_ hstart hend
  exact fun hleaves k hk => hleaves.vararg ha (by rw [countCode_mod hwant hlt]; omega)

/-- A run through the code of an expression leaves the values that are asked for. -/
theorem Run.yields (hmax : S.Framed) (hroom : S.Room (a + 1))
    (hroom' : S.Room (a + want.toNat)) (hwant : 0 ≤ want) (hcount : e.isMulti = true ∨ want = 1)
    (hcode : e.shape S opened a want (a + 1) lo hi) (hrun : Run S floor nil lo.pc hi.pc s s')
    (hstart : s.pc = lo.pc) (hend : s'.pc = hi.pc) :
    ∃ vs, Yields S floor nil e a lo.pc hi.pc s s' vs ∧
      ∀ k < want.toNat, s'.registers (a + k) = vs.getD k nil := by
  cases hmulti : e.isMulti with
  | false =>
    obtain rfl : want = 1 := hcount.resolve_left (by simp [hmulti])
    refine ⟨_, .one hmulti hrun, fun k hk => ?_⟩
    obtain rfl : k = 0 := Nat.lt_one_iff.mp hk
    rfl
  | true =>
    have hlt : want < 0x1ff := by
      have hpeak := hroom'.2
      unfold Site.Framed frameRegisters at hmax
      omega
    cases e with
    | call c => exact hrun.yields_call hmax hroom hwant hlt hcode hstart hend
    | vararg => exact hrun.yields_vararg (hroom.lt hmax) hwant hlt hcode hstart hend
    | _ => cases hmulti

/-! ## Lists of expressions -/

theorem YieldsEach.length_eq (h : YieldsEach S floor nil opened es r lo hi s s' given) :
    given.length = es.length := by
  induction h with
  | nil => rfl
  | cons _ _ _ _ ih => rw [List.length_cons, List.length_cons, ih]

end Activation

theorem Expr.parts_eq_map (es : List Expr) :
    Expr.parts es = es.map fun e => ⟨e, e.shape⟩ := by
  induction es with
  | nil => rfl
  | cons e rest ih => rw [Expr.parts, ih, List.map_cons]

/-- The last expression of a list can give any number of values. -/
def Expr.expands (es : List Expr) : Bool := es.getLast?.any (·.isMulti)

namespace Activation

variable {s s' : Activation V}

/-- A run through the code of a list leaves its values in a row. Those of the last
expression come after the others, as many as are wanted of it. -/
theorem Run.yieldsEach (hmax : S.Framed) (hfloor : floor ≤ used)
    (hlast : Expr.expands es = true ∨ lastWant = 1) (hwant : 0 ≤ lastWant)
    (hroom : es ≠ [] → S.Room (used + (totalWant es.length lastWant).toNat))
    (hcode : EachIs S opened lastWant (Expr.parts es) used lo hi)
    (hrun : Run S floor nil lo.pc hi.pc s s') (hstart : s.pc = lo.pc) (hend : s'.pc = hi.pc) :
    ∃ given, YieldsEach S floor nil opened es used lo hi s s' given ∧
      ∀ i < (totalWant es.length lastWant).toNat,
        s'.registers (used + i) = (spread nil given).getD i nil := by
  induction es generalizing used lo s with
  | nil =>
    obtain rfl : hi = lo := hcode
    obtain rfl := hrun.eq_of_empty
    exact ⟨[], .nil, fun i hi => by simp [totalWant] at hi⟩
  | cons e rest ih =>
    replace hroom := hroom (List.cons_ne_nil _ _)
    cases rest with
    | nil =>
      obtain ⟨hone, hfirst⟩ := hcode
      rw [List.length_singleton, totalWant_one lastWant (by omega)] at hroom ⊢
      obtain ⟨vs, hyields, hvalues⟩ :=
        hrun.yields hmax hone hroom hwant hlast hfirst hstart hend
      exact ⟨[vs], .cons hfirst hend hyields .nil, hvalues⟩
    | cons e' rest =>
      obtain ⟨mid, hone, hfirst, hrest⟩ := hcode
      have hmore : S.Room (used + 1 + (totalWant (e' :: rest).length lastWant).toNat) :=
        room_totalWant hone hroom
      have hregion := hrest.region (Expr.parts_stay (e' :: rest)) hmax
      obtain ⟨s₁, hmid, hrun₁, hrun₂⟩ :=
        hrun.split (Expr.stays e hmax hone hfirst) hregion hstart hend
      have hone' : S.Room (used + (1 : Int).toNat) := hone
      obtain ⟨vs, hyields, hvalue⟩ :=
        hrun₁.yields hmax hone hone' (by decide) (Or.inr rfl) hfirst hstart hmid
      obtain ⟨given, heach, hvalues⟩ :=
        ih (show floor ≤ used + 1 by omega) hlast (fun _ => hmore) hrest hrun₂ hmid
      refine ⟨vs :: given, .cons hfirst hmid hyields heach, fun i hi => ?_⟩
      have hspread : spread nil (vs :: given) = vs.headD nil :: spread nil given := by
        cases heach
        rfl
      rw [hspread]
      cases i with
      | zero =>
        -- what comes later leaves the first register alone
        have hkeep : s'.registers used = s₁.registers used :=
          hrun₂.keeps hregion hfloor (Nat.lt_succ_self _)
        have hzero := hvalue 0 (by decide)
        rw [Nat.add_zero] at hzero ⊢
        rw [hkeep, hzero]
        cases vs <;> rfl
      | succ i =>
        have hlt : i < (totalWant (e' :: rest).length lastWant).toNat := by
          simp only [totalWant, List.length_cons, Nat.succ_ne_zero, if_false] at hi ⊢
          omega
        rw [List.getD_cons_succ, ← hvalues i hlt]
        exact congrArg s'.registers (by omega)

end Activation

/-! ## Adjusted lists -/

/-- Some expressions without the literal nils at their end. -/
def Expr.withoutTailNils (es : List Expr) : List Expr :=
  (es.reverse.dropWhile (·.isNil)).reverse

theorem Part.withoutTailNils_parts (es : List Expr) :
    Part.withoutTailNils (Expr.parts es) = Expr.parts (Expr.withoutTailNils es) := by
  rw [Expr.parts_eq_map, Expr.parts_eq_map, Part.withoutTailNils, Expr.withoutTailNils,
    ← List.map_reverse, List.dropWhile_map, ← List.map_reverse]
  rfl

theorem Expr.length_parts (es : List Expr) : (Expr.parts es).length = es.length := by
  rw [Expr.parts_eq_map, List.length_map]

namespace Activation

variable {s s' : Activation V} {n : Nat} {es : List Expr}

section

variable (hmax : S.Framed)

include hmax

/-- If there are not, a call or `...` at the end gives what is missing. -/
theorem Run.expands (hfloor : floor ≤ used) (hlt : es.length < n)
    (hexpands : Expr.expands es = true) (hroom : S.Room (used + n))
    (hcode : EachIs S opened ((n - es.length : Nat) + 1) (Expr.parts es) used lo hi)
    (hrun : Run S floor nil lo.pc hi.pc s s') (hstart : s.pc = lo.pc) (hend : s'.pc = hi.pc) :
    ∃ given, YieldsEach S floor nil opened es used lo hi s s' given ∧
      ∀ i < n, s'.registers (used + i) = (spread nil given).getD i nil := by
  have hne : es.length ≠ 0 := by
    intro hzero
    rw [List.length_eq_zero_iff.mp hzero] at hexpands
    cases hexpands
  have htotal : totalWant es.length ((n - es.length : Nat) + 1) = n := by
    simp only [totalWant, hne, if_false]
    split <;> omega
  obtain ⟨given, heach, hvalues⟩ := hrun.yieldsEach hmax hfloor (Or.inl hexpands) (by omega)
    (fun _ => by rw [htotal]; exact hroom) hcode hstart hend
  exact ⟨given, heach, fun i hi => hvalues i (by rw [htotal]; exact hi)⟩

end

end Activation

/-- A list is loaded above what is in use, and control goes through its code to the end. -/
theorem AdjustedIs.region {n : Nat} (hmax : S.Framed)
    (h : AdjustedIs S opened n (Expr.parts es) used lo hi) : S.Region used lo.pc hi.pc := by
  rw [AdjustedIs, Part.withoutTailNils_parts] at h
  have hparts := Expr.parts_stay (Expr.withoutTailNils es)
  split at h
  · exact h.region hparts hmax
  · obtain ⟨hroom, h⟩ := h
    split at h
    · exact h.region hparts hmax
    · obtain ⟨mid, heach, hnil⟩ := h
      have hpeak := hroom.2
      have hframe : S.peak ≤ 255 := hmax
      exact (heach.region hparts hmax).trans (.abc hnil rfl (by omega) (Nat.le_add_right _ _))

/-! ## Loading -/

/-- A function as it is at some moment, with those around it. -/
def Workspace.site (w : Workspace) : Site :=
  ⟨w.options, w.draft, w.enclosing.map fun d => ⟨d, d.opened⟩⟩

/-- However a function ends, its frame fits in the field for its size. -/
theorem Site.Ends.peak_le {w : Workspace} (h : S.Ends w) (hw : w.Wf) :
    S.Framed := by
  have hlimit : S.draft.registers.limit = w.draft.registers.limit :=
    congrArg Prod.fst h.draft.header
  have hpeak := S.draft.registers.peak_le
  rw [hlimit, hw.limit] at hpeak
  exact Nat.le_trans hpeak hw.small

section

open Activation

end

end LuaLowering
