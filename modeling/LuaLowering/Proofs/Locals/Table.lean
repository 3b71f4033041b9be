import Mathlib.Data.List.Nodup
import Mathlib.Data.List.Induction
import LuaLowering.Proofs.Locals.Layout
import LuaLowering.Proofs.Sequence.Function

/-!
# The table of locals

A debugger finds the variable of a register in the table of locals, by the ranges
that stand there. Ranges are written at three different places of a function's
lowering, and here they are read back: at every instruction the entries in range
are the stack of the open locals, in the order of the table and of the registers.

What is known of a stretch of code depends on both its ends. Before it, the open
locals are a stack that has begun; behind it, those still open have not ended, and
the ones below outlive the ones above.
-/

namespace LuaLowering

variable {S : Site} {P P' Q : Point} {names : List String} {v : Local} {pc : Nat}
  {new stack : List Nat} {params : List String} {body : Block} {o : Options} {q : Prototype}

/-- The open locals of a point are a stack of registers and have begun, in the order
of their declarations. -/
structure Site.Begun (S : Site) (P : Point) : Prop where
  slotted : S.Slotted P.opened
  wf : P.Wf
  sorted : P.opened.Pairwise (· > ·)
  starts : ∀ j ∈ P.opened, ∀ v, S.draft.locals[j]? = some v → v.startPc ≤ P.pc
  order : ∀ i ∈ P.opened, ∀ j ∈ P.opened, i < j → ∀ v w, S.draft.locals[i]? = some v →
    S.draft.locals[j]? = some w → v.startPc ≤ w.startPc

/-- The open locals of a point have not ended, and will end in the opposite order. -/
structure Site.Lasts (S : Site) (P : Point) : Prop where
  ends : ∀ j ∈ P.opened, ∀ v, S.draft.locals[j]? = some v → P.pc ≤ v.endPc
  order : ∀ i ∈ P.opened, ∀ j ∈ P.opened, i < j → ∀ v w, S.draft.locals[i]? = some v →
    S.draft.locals[j]? = some w → w.endPc ≤ v.endPc

/-! ## From one end to the other -/

/-- One more local that begins here. -/
theorem Site.Begun.declare (hP : S.Begun P) (hv : S.draft.locals[P.declared]? = some v)
    (hslot : v.slot = P.opened.length) (hstart : v.startPc = P.pc)
    (hroom : S.Room (P.opened.length + 1)) :
    S.Begun ⟨P.toMark, P.declared :: P.opened, P.declared + 1⟩ where
  slotted := ⟨⟨v, hv, hslot⟩, hroom, hP.slotted⟩
  wf := by
    intro j hj
    rcases List.mem_cons.mp hj with rfl | hj
    · exact Nat.lt_succ_self _
    · exact Nat.lt_succ_of_lt (hP.wf j hj)
  sorted := List.pairwise_cons.mpr ⟨fun i hi => hP.wf i hi, hP.sorted⟩
  starts := by
    intro j hj w hw
    rcases List.mem_cons.mp hj with rfl | hj
    · obtain rfl := Option.some.inj (hw.symm.trans hv)
      exact Nat.le_of_eq hstart
    · exact hP.starts j hj w hw
  order := by
    intro i hi j hj hlt u w hu hw
    rcases List.mem_cons.mp hj with rfl | hj
    · obtain rfl := Option.some.inj (hw.symm.trans hv)
      rcases List.mem_cons.mp hi with rfl | hi
      · exact absurd hlt (Nat.lt_irrefl _)
      · rw [hstart]
        exact hP.starts i hi u hu
    · rcases List.mem_cons.mp hi with rfl | hi
      · exact absurd (hP.wf j hj) (Nat.lt_asymm hlt)
      · exact hP.order i hi j hj hlt u w hu hw

theorem Declares.begun (h : Declares S pc names P P') (hpc : P.pc = pc) (hP : S.Begun P) :
    S.Begun P' := by
  induction names generalizing P with
  | nil =>
    obtain rfl : P' = P := h
    exact hP
  | cons x rest ih =>
    obtain ⟨⟨v, hv, -, hslot, hstart⟩, hroom, hrest⟩ := h
    exact ih hrest hpc (hP.declare hv hslot (hstart.trans hpc.symm) hroom)

namespace Layout

theorem begun (h : Layout S P P') (hP : S.Begun P) : S.Begun P' := by
  induction h with
  | code hle =>
    have hstarts := fun j hj v hv => Nat.le_trans (hP.starts j hj v hv) hle
    exact ⟨hP.slotted, hP.wf, hP.sorted, hstarts, hP.order⟩
  | seq _ _ ih ih' => exact ih' (ih hP)
  | declare hdecl => exact hdecl.begun rfl hP
  | scope hbody hopened hle hend hsame hdecl =>
    have hlay := Layout.scope hbody hopened hle hend hsame hdecl
    refine ⟨hsame ▸ hP.slotted, hlay.wf hP.wf, hsame ▸ hP.sorted, fun j hj v hv => ?_,
      hsame ▸ hP.order⟩
    exact Nat.le_trans (hP.starts j (hsame ▸ hj) v hv) hlay.le

theorem lasts (h : Layout S P P') (hP' : S.Lasts P') : S.Lasts P where
  ends := fun j hj v hv => Nat.le_trans h.le (hP'.ends j (h.suffix.subset hj) v hv)
  order := fun i hi j hj => hP'.order i (h.suffix.subset hi) j (h.suffix.subset hj)

end Layout

/-- The locals of a scope last until its end, where those around it still do. -/
theorem Site.Lasts.inside (hP' : S.Lasts P') (hQ : Q.opened.Pairwise (· > ·))
    (hopened : Q.opened = new ++ P.opened) (hle : Q.pc ≤ P'.pc) (hend : S.EndAt P'.pc new)
    (hsame : P'.opened = P.opened) :
    S.Lasts Q ∧ ∀ j ∈ Q.opened, ∀ v, S.draft.locals[j]? = some v → P'.pc ≤ v.endPc := by
  have hlast : ∀ j ∈ Q.opened, ∀ v, S.draft.locals[j]? = some v → P'.pc ≤ v.endPc := by
    intro j hj v hv
    rcases List.mem_append.mp (hopened ▸ hj) with hj | hj
    · exact Nat.le_of_eq (hend.eq hj hv).symm
    · exact hP'.ends j (hsame ▸ hj) v hv
  refine ⟨⟨fun j hj v hv => Nat.le_trans hle (hlast j hj v hv), ?_⟩, hlast⟩
  intro i hi j hj hlt v w hv hw
  rcases List.mem_append.mp (hopened ▸ hj) with hnew | hold
  · rw [hend.eq hnew hw]
    exact hlast i hi v hv
  · rcases List.mem_append.mp (hopened ▸ hi) with hnew' | hold'
    · rw [hopened, List.pairwise_append] at hQ
      exact absurd (hQ.2.2 i hnew' j hold) (Nat.lt_asymm hlt)
    · exact hP'.order i (hsame ▸ hold') j (hsame ▸ hold) hlt v w hv hw

/-! ## What a stretch of code records -/

/-- Of two locals, the one that is declared first ends before the other begins, or
lasts around it. -/
def Local.Frames (v w : Local) : Prop :=
  v.endPc ≤ w.startPc ∨ v.startPc ≤ w.startPc ∧ w.endPc ≤ v.endPc

/-- A local is in range at a position. -/
def Local.InRange (v : Local) (pc : Nat) : Prop := v.startPc ≤ pc ∧ pc < v.endPc

/-- Among the locals of a stretch of code, those in range at a position are a stack
of registers. -/
def Site.Shows (S : Site) (P P' : Point) (pc : Nat) : Prop :=
  ∃ stack : List Nat, S.Slotted stack ∧ stack.Pairwise (· > ·) ∧ (∀ j ∈ stack, Among P P' j) ∧
    ∀ j v, Among P P' j → S.draft.locals[j]? = some v → (j ∈ stack ↔ v.InRange pc)

/-- What the table says of the locals of a stretch of code. -/
structure Recorded (S : Site) (P P' : Point) : Prop where
  starts : ∀ j v, P.declared ≤ j → j < P'.declared → S.draft.locals[j]? = some v →
    P.pc ≤ v.startPc ∧ v.startPc ≤ v.endPc
  ends : ∀ j v, P.declared ≤ j → j < P'.declared → j ∉ P'.opened → S.draft.locals[j]? = some v →
    v.endPc ≤ P'.pc
  shows : ∀ pc, P.pc ≤ pc → pc < P'.pc → S.Shows P P' pc
  frames : ∀ i j v w, Among P P' i → Among P P' j → i < j → S.draft.locals[i]? = some v →
    S.draft.locals[j]? = some w → v.Frames w

/-- Where nothing is declared, all that is open is in range throughout. -/
theorem Site.Begun.shows (hP : S.Begun P) (hge : P.pc ≤ pc)
    (hin : ∀ j ∈ P.opened, ∀ v, S.draft.locals[j]? = some v → pc < v.endPc)
    (hopen : ∀ j ∈ P.opened, Among Q P' j)
    (hout : ∀ j v, Among Q P' j → j ∉ P.opened → S.draft.locals[j]? = some v → ¬ v.InRange pc) :
    S.Shows Q P' pc := by
  refine ⟨P.opened, hP.slotted, hP.sorted, hopen,
    fun j v hj hv => ⟨fun hmem => ?_, fun hrange => ?_⟩⟩
  · exact ⟨Nat.le_trans (hP.starts j hmem v hv) hge, hin j hmem v hv⟩
  · by_contra hmem
    exact hout j v hj hmem hv hrange

/-- Locals that are open at the same point. -/
theorem Site.Begun.frames (hP : S.Begun P) (hP' : S.Lasts P) {i j : Nat} {w : Local}
    (hi : i ∈ P.opened) (hj : j ∈ P.opened) (hlt : i < j) (hv : S.draft.locals[i]? = some v)
    (hw : S.draft.locals[j]? = some w) : v.Frames w :=
  Or.inr ⟨hP.order i hi j hj hlt v w hv hw, hP'.order i hi j hj hlt v w hv hw⟩

namespace Recorded

theorem code {m : Mark} (hle : P.pc ≤ m.pc) (hP : S.Begun P) (hP' : S.Lasts (P.at m)) :
    Recorded S P (P.at m) := by
  have hopen : ∀ j, Among P (P.at m) j → j ∈ P.opened := by
    intro j hj
    rcases hj with hj | ⟨hge, hlt⟩
    · exact hj
    · exact absurd hlt (Nat.not_lt.mpr hge)
  refine ⟨fun j v hge hlt => ?_, fun j v hge hlt => ?_, fun pc hge hlt => ?_,
    fun i j v w hi hj => ?_⟩
  · exact absurd hlt (Nat.not_lt.mpr hge)
  · exact absurd hlt (Nat.not_lt.mpr hge)
  · exact hP.shows hge (fun j hj v hv => Nat.lt_of_lt_of_le hlt (hP'.ends j hj v hv))
      (fun j hj => Or.inl hj) fun j v hj hnot => absurd (hopen j hj) hnot
  · exact hP.frames ⟨fun j hj v hv => Nat.le_trans hle (hP'.ends j hj v hv), hP'.order⟩ (hopen i hi)
      (hopen j hj)

theorem declare (h : Declares S P.pc names P P') (hP : S.Begun P) (hP' : S.Lasts P') :
    Recorded S P P' := by
  have hpc : P'.pc = P.pc := congrArg Mark.pc h.pc_eq
  have hopen : ∀ j, Among P P' j → j ∈ P'.opened := fun j hj => (h.mem_opened j).mpr hj
  refine ⟨fun j v hge hlt hv => ?_, fun j v hge hlt hnot => ?_, fun pc hge hlt => ?_,
    fun i j v w hi hj => ?_⟩
  · have hstart := (h.local hge hlt hv).2.1
    have hend := hP'.ends j (hopen j (Or.inr ⟨hge, hlt⟩)) v hv
    omega
  · exact absurd (hopen j (Or.inr ⟨hge, hlt⟩)) hnot
  · omega
  · exact (h.begun rfl hP).frames hP' (hopen i hi) (hopen j hj)

theorem seq (hlay : Layout S P Q) (hlay' : Layout S Q P') (hP : S.Begun P)
    (h : Recorded S P Q) (h' : Recorded S Q P') : Recorded S P P' := by
  have hdecl := hlay.declared_le
  have hdecl' := hlay'.declared_le
  have hle' := hlay'.le
  -- what is known of a local: it has ended in the first part, is open between the
  -- two, or begins in the second part
  have hsplit : ∀ j, Among P P' j → j ∈ Q.opened ∨
      (P.declared ≤ j ∧ j < Q.declared ∧ j ∉ Q.opened) ∨ (Q.declared ≤ j ∧ j < P'.declared) := by
    intro j hj
    by_cases hopen : j ∈ Q.opened
    · exact Or.inl hopen
    · rcases hj with hj | hj
      · exact absurd (hlay.suffix.subset hj) hopen
      · by_cases hlow : j < Q.declared
        · exact Or.inr (Or.inl ⟨hj.1, hlow, hopen⟩)
        · exact Or.inr (Or.inr ⟨by omega, hj.2⟩)
  have hopenQ := hlay.among hP.wf
  have hwiden : ∀ j, Among P Q j → Among P P' j := by
    intro j hj
    exact hj.imp_right fun hj => ⟨hj.1, by omega⟩
  refine ⟨fun j v hge hlt hv => ?_, fun j v hge hlt hnot hv => ?_, fun pc hge hlt => ?_, ?_⟩
  · by_cases hlow : j < Q.declared
    · exact h.starts j v hge hlow hv
    · have hstarts := h'.starts j v (by omega) hlt hv
      have hle := hlay.le
      omega
  · by_cases hlow : j < Q.declared
    · have hend := h.ends j v hge hlow (fun hmem => hnot (hlay'.suffix.subset hmem)) hv
      omega
    · exact h'.ends j v (by omega) hlt hnot hv
  · by_cases hin : pc < Q.pc
    · obtain ⟨stack, hslot, hsorted, hsub, hiff⟩ := h.shows pc hge hin
      refine ⟨stack, hslot, hsorted, fun j hj => hwiden j (hsub j hj), fun j v hj hv => ?_⟩
      by_cases hfirst : Among P Q j
      · exact hiff j v hfirst hv
      · -- it begins in the second part
        refine ⟨fun hmem => absurd (hsub j hmem) hfirst, fun hrange => ?_⟩
        rcases hsplit j hj with hopen | ⟨hlow, hhigh, -⟩ | ⟨hlow, hhigh⟩
        · exact absurd (hopenQ j hopen) hfirst
        · exact absurd (Or.inr ⟨hlow, hhigh⟩) hfirst
        · have hstart := (h'.starts j v hlow hhigh hv).1
          have hrange' := hrange.1
          omega
    · obtain ⟨stack, hslot, hsorted, hsub, hiff⟩ := h'.shows pc (by omega) hlt
      refine ⟨stack, hslot, hsorted, fun j hj => ?_, fun j v hj hv => ?_⟩
      · rcases hsub j hj with hopen | ⟨hlow, hhigh⟩
        · exact hwiden j (hopenQ j hopen)
        · exact Or.inr ⟨by omega, hhigh⟩
      · by_cases hsecond : Among Q P' j
        · exact hiff j v hsecond hv
        · -- it has ended in the first part
          refine ⟨fun hmem => absurd (hsub j hmem) hsecond, fun hrange => ?_⟩
          rcases hsplit j hj with hopen | ⟨hlow, hhigh, hnot⟩ | hlater
          · exact absurd (Or.inl hopen) hsecond
          · have hend := h.ends j v hlow hhigh hnot hv
            have hrange' := hrange.2
            omega
          · exact absurd (Or.inr hlater) hsecond
  · intro i j v w hi hj hlt hv hw
    rcases hsplit i hi with hopen | ⟨hlow, hhigh, hnot⟩ | hlater
    · rcases hsplit j hj with hopen' | ⟨hlow', hhigh', -⟩ | hlater'
      · exact h.frames i j v w (hopenQ i hopen) (hopenQ j hopen') hlt hv hw
      · exact h.frames i j v w (hopenQ i hopen) (Or.inr ⟨hlow', hhigh'⟩) hlt hv hw
      · exact h'.frames i j v w (Or.inl hopen) (Or.inr hlater') hlt hv hw
    · rcases hsplit j hj with hopen' | ⟨hlow', hhigh', -⟩ | ⟨hlow', hhigh'⟩
      · exact h.frames i j v w (Or.inr ⟨hlow, hhigh⟩) (hopenQ j hopen') hlt hv hw
      · exact h.frames i j v w (Or.inr ⟨hlow, hhigh⟩) (Or.inr ⟨hlow', hhigh'⟩) hlt hv hw
      · have hend := h.ends i v hlow hhigh hnot hv
        have hstart := (h'.starts j w hlow' hhigh' hw).1
        exact Or.inl (Nat.le_trans hend hstart)
    · rcases hsplit j hj with hopen' | ⟨-, hhigh', -⟩ | hlater'
      · have hlt' := (hlay.begun hP).wf j hopen'
        omega
      · omega
      · exact h'.frames i j v w (Or.inr hlater) (Or.inr hlater') hlt hv hw

theorem scope (hbody : Layout S P Q) (hopened : Q.opened = new ++ P.opened) (hle : Q.pc ≤ P'.pc)
    (hend : S.EndAt P'.pc new) (hsame : P'.opened = P.opened) (hdecl : P'.declared = Q.declared)
    (hP : S.Begun P) (h : Recorded S P Q)
    (hlast : ∀ j ∈ Q.opened, ∀ v, S.draft.locals[j]? = some v → P'.pc ≤ v.endPc) :
    Recorded S P P' := by
  have hQ := hbody.begun hP
  have hamong : ∀ j, Among P P' j ↔ Among P Q j := fun j => by rw [Among, Among, hdecl]
  refine ⟨fun j v hge hlt => ?_, fun j v hge hlt hnot hv => ?_, fun pc hge hlt => ?_,
    fun i j v w hi hj => ?_⟩
  · exact h.starts j v hge (hdecl ▸ hlt)
  · by_cases hopen : j ∈ Q.opened
    · rcases List.mem_append.mp (hopened ▸ hopen) with hnew | hold
      · exact Nat.le_of_eq (hend.eq hnew hv)
      · exact absurd (hsame ▸ hold) hnot
    · exact Nat.le_trans (h.ends j v hge (hdecl ▸ hlt) hopen hv) hle
  · by_cases hin : pc < Q.pc
    · obtain ⟨stack, hslot, hsorted, hsub, hiff⟩ := h.shows pc hge hin
      exact ⟨stack, hslot, hsorted, fun j hj => (hamong j).mpr (hsub j hj),
        fun j v hj => hiff j v ((hamong j).mp hj)⟩
    · -- behind the body everything in it is still open
      refine hQ.shows (Nat.not_lt.mp hin)
        (fun j hj v hv => Nat.lt_of_lt_of_le hlt (hlast j hj v hv))
        (fun j hj => (hamong j).mpr (hbody.among hP.wf j hj)) fun j v hj hnot hv hrange => ?_
      rcases hj with hj | ⟨hlow, hhigh⟩
      · exact hnot (hbody.suffix.subset hj)
      · have hend' := h.ends j v hlow (hdecl ▸ hhigh) hnot hv
        have hrange' := hrange.2
        omega
  · exact h.frames i j v w ((hamong i).mp hi) ((hamong j).mp hj)

end Recorded

theorem Layout.recorded (h : Layout S P P') (hP : S.Begun P) (hP' : S.Lasts P') :
    Recorded S P P' := by
  induction h with
  | code hle => exact .code hle hP hP'
  | seq hfirst hrest ih ih' =>
    exact .seq hfirst hrest hP (ih hP (hrest.lasts hP')) (ih' (hfirst.begun hP) hP')
  | declare hdecl => exact .declare hdecl hP hP'
  | scope hbody hopened hle hend hsame hdecl ih =>
    obtain ⟨hQ, hlast⟩ := hP'.inside (hbody.begun hP).sorted hopened hle hend hsame
    exact .scope hbody hopened hle hend hsame hdecl hP (ih hP hQ) hlast

/-! ## The finished table -/

/-- A whole function is one scope. -/
theorem WrittenIs.layout (hregs : S.options.registerLimit ≤ frameRegisters)
    (h : WrittenIs params body.shape S) :
    Layout S ⟨⟨0, 0⟩, [], 0⟩ ⟨⟨S.draft.code.size, 0⟩, [], S.draft.locals.size⟩ := by
  have hmax := h.peak_le hregs
  obtain ⟨P, Q, hparams, hbody, -, hsize, hends, hlocals, -, -, -⟩ := h
  have hempty : Point.Wf ⟨⟨0, 0⟩, [], 0⟩ := by simp [Point.Wf]
  have hroom : S.Room P.opened.length := hparams.room ⟨Nat.zero_le _, Nat.zero_le _⟩
  have hlay := Block.lays body hmax hroom (hparams.wf hempty) hbody
  have hall : Layout S ⟨⟨0, 0⟩, [], 0⟩ Q := .seq (.declare hparams) hlay
  rw [hsize, hlocals]
  exact .scope hall (List.append_nil _).symm (Nat.le_succ _) hends rfl rfl

theorem WrittenIs.recorded (hregs : S.options.registerLimit ≤ frameRegisters)
    (h : WrittenIs params body.shape S) :
    Recorded S ⟨⟨0, 0⟩, [], 0⟩ ⟨⟨S.draft.code.size, 0⟩, [], S.draft.locals.size⟩ := by
  refine (h.layout hregs).recorded ⟨trivial, ?_, .nil, ?_, ?_⟩ ⟨?_, ?_⟩ <;> simp [Point.Wf]

/-- The registers of a stack, from the lowest on. -/
theorem Site.Slotted.slots (h : S.Slotted stack) :
    (stack.reverse.filterMap fun j => S.draft.locals[j]?).map (·.slot) =
      List.range stack.length := by
  induction stack with
  | nil => rfl
  | cons i is ih =>
    obtain ⟨⟨v, hv, hslot⟩, -, hrest⟩ := h
    rw [List.reverse_cons, List.filterMap_append, List.map_append, ih hrest, List.length_cons,
      List.range_succ]
    simp [hv, hslot]

/-- The entries of a list that stand at the indices of a stack, in the order of the
list. -/
theorem filter_eq_filterMap_reverse {α : Type} (xs : List α) (keep : α → Bool)
    (hsorted : stack.Pairwise (· > ·)) (hlt : ∀ j ∈ stack, j < xs.length)
    (hkeep : ∀ j x, xs[j]? = some x → (j ∈ stack ↔ keep x = true)) :
    xs.filter keep = stack.reverse.filterMap fun j => xs[j]? := by
  induction xs using List.reverseRecOn generalizing stack with
  | nil =>
    cases stack with
    | nil => rfl
    | cons j rest => exact absurd (hlt j List.mem_cons_self) (Nat.not_lt_zero _)
  | append_singleton xs x ih =>
    have hlast : (xs ++ [x])[xs.length]? = some x := by simp
    have hstack : ∀ {rest : List Nat}, rest.Pairwise (· > ·) → (∀ j ∈ rest, j < xs.length) →
        (∀ j < xs.length, j ∈ rest ↔ j ∈ stack) →
        xs.filter keep = rest.reverse.filterMap fun j => (xs ++ [x])[j]? := by
      intro rest hrest hsmall hsame
      have hbelow : rest.reverse.filterMap (fun j => (xs ++ [x])[j]?) =
          rest.reverse.filterMap fun j => xs[j]? :=
        List.filterMap_congr fun j hj => List.getElem?_append_left
          (hsmall j (List.mem_reverse.mp hj))
      rw [hbelow]
      refine ih hrest hsmall fun j y hy => ?_
      have hj := (List.getElem?_eq_some_iff.mp hy).1
      rw [hsame j hj]
      exact hkeep j y (by rw [List.getElem?_append_left hj, hy])
    rw [List.filter_append]
    by_cases hmem : xs.length ∈ stack
    · -- the last entry is kept, and its index is the top of the stack
      have hkept : keep x = true := (hkeep _ x hlast).mp hmem
      cases stack with
      | nil => cases hmem
      | cons top rest =>
        rw [List.pairwise_cons] at hsorted
        obtain rfl : top = xs.length := by
          have htop := hlt top List.mem_cons_self
          simp only [List.length_append, List.length_singleton] at htop
          rcases List.mem_cons.mp hmem with heq | hmem
          · exact heq.symm
          · have hgt := hsorted.1 _ hmem
            omega
        have hbelow := hstack hsorted.2 hsorted.1 fun j hj => by
          simp [Nat.ne_of_lt hj]
        rw [hbelow, List.reverse_cons, List.filterMap_append]
        simp [hkept]
    · have hdropped : keep x = false := by
        rw [← Bool.not_eq_true, ← hkeep _ x hlast]
        exact hmem
      have hsmall : ∀ j ∈ stack, j < xs.length := by
        intro j hj
        have hbound := hlt j hj
        simp only [List.length_append, List.length_singleton] at hbound
        rcases Nat.lt_succ_iff_lt_or_eq.mp hbound with hbound | rfl
        · exact hbound
        · exact absurd hj hmem
      rw [hstack hsorted hsmall fun j _ => Iff.rfl]
      simp [hdropped]

/-- The entries in range at a position, in the order of the table. -/
def Prototype.inRange (p : Prototype) (pc : Nat) : List LocalEntry :=
  p.locals.filter fun v => v.startPc ≤ pc && pc < v.endPc

/-- Two ranges are nested or disjoint. -/
def LocalEntry.Nested (v w : LocalEntry) : Prop :=
  v.endPc ≤ w.startPc ∨ w.endPc ≤ v.startPc ∨ v.startPc ≤ w.startPc ∧ w.endPc ≤ v.endPc ∨
    w.startPc ≤ v.startPc ∧ v.endPc ≤ w.endPc

/-- The table of locals says at each instruction which variable each register of the
stack holds. -/
structure Prototype.Tabulates (p : Prototype) (params : List String) : Prop where
  slots : ∀ pc < p.code.size, (p.inRange pc).map (·.slot) = List.range (p.inRange pc).length
  ranges : ∀ v ∈ p.locals, v.startPc ≤ v.endPc ∧ v.endPc ≤ p.code.size
  nested : p.locals.Pairwise LocalEntry.Nested
  count : p.numParams.toNat = params.length
  params : p.locals.take params.length =
    params.mapIdx fun k x => ⟨x, k, 0, p.code.size⟩

theorem Draft.finish_locals (d : Draft) (hstrip : o.strip = false) :
    (d.finish o).locals = d.locals.toList.map fun v => ⟨v.name, v.slot, v.startPc, v.endPc⟩ := by
  simp [Draft.finish, hstrip]

/-- What is declared stands in the table in the order of the names. -/
theorem Declares.entry {startPc : Nat} (h : Declares S startPc names P P') {k : Nat} {x : String}
    (hx : names[k]? = some x) : ∃ v, S.draft.locals[P.declared + k]? = some v ∧ v.name = x ∧
      v.slot = P.opened.length + k ∧ v.startPc = startPc := by
  induction names generalizing P k with
  | nil => cases hx
  | cons y rest ih =>
    obtain ⟨⟨v, hv, hname, hslot, hstart⟩, -, hrest⟩ := h
    cases k with
    | zero =>
      obtain rfl : y = x := by simpa using hx
      exact ⟨v, hv, hname, hslot, hstart⟩
    | succ k =>
      obtain ⟨w, hw, hname', hslot', hstart'⟩ := ih hrest (by simpa using hx)
      refine ⟨w, ?_, hname', ?_, hstart'⟩
      · rw [← hw]
        congr 1
        simp only
        omega
      · simp only [List.length_cons] at hslot'
        omega

section

variable {params : List String} {body : Block}
  (hregs : S.options.registerLimit ≤ frameRegisters) (hstrip : S.options.strip = false)
  (h : WrittenIs params body.shape S)

include hregs hstrip h

/-- The entries in range at an instruction are the registers of a stack. -/
theorem WrittenIs.slots (hpc : pc < S.draft.code.size) :
    ∃ n, ((S.draft.finish S.options).inRange pc).map (·.slot) = List.range n := by
  obtain ⟨stack, hslot, hsorted, hsub, hiff⟩ := (h.recorded hregs).shows pc (Nat.zero_le _) hpc
  have hlt : ∀ j ∈ stack, j < S.draft.locals.toList.length := by
    intro j hj
    rcases hsub j hj with hj | hj
    · cases hj
    · exact hj.2
  refine ⟨stack.length, ?_⟩
  rw [← hslot.slots, Prototype.inRange, Draft.finish_locals _ hstrip, List.filter_map, List.map_map]
  have hfilter := filter_eq_filterMap_reverse S.draft.locals.toList
    (fun v => decide (v.startPc ≤ pc) && decide (pc < v.endPc)) hsorted hlt (by
      intro j v hv
      have hv' : S.draft.locals[j]? = some v := by rwa [← Array.getElem?_toList]
      have hj : j < S.draft.locals.size := (Array.getElem?_eq_some_iff.mp hv').1
      rw [hiff j v (Or.inr ⟨Nat.zero_le _, hj⟩) hv', Local.InRange]
      simp)
  simp only [Array.getElem?_toList] at hfilter
  rw [← hfilter]
  rfl

theorem WrittenIs.ranges : ∀ v ∈ (S.draft.finish S.options).locals,
    v.startPc ≤ v.endPc ∧ v.endPc ≤ S.draft.code.size := by
  intro v hv
  rw [Draft.finish_locals _ hstrip, List.mem_map] at hv
  obtain ⟨w, hw, rfl⟩ := hv
  obtain ⟨j, hj⟩ := Array.mem_iff_getElem?.mp (Array.mem_toList_iff.mp hw)
  have hlt := (Array.getElem?_eq_some_iff.mp hj).1
  have hrec := h.recorded hregs
  exact ⟨(hrec.starts j w (Nat.zero_le _) hlt hj).2, hrec.ends j w (Nat.zero_le _) hlt (by simp) hj⟩

theorem WrittenIs.nested : (S.draft.finish S.options).locals.Pairwise LocalEntry.Nested := by
  rw [Draft.finish_locals _ hstrip, List.pairwise_map, List.pairwise_iff_getElem]
  intro i j hi hj hlt
  have hrec := h.recorded hregs
  have hframes := hrec.frames i j S.draft.locals.toList[i] S.draft.locals.toList[j]
    (Or.inr ⟨Nat.zero_le _, hi⟩) (Or.inr ⟨Nat.zero_le _, hj⟩) hlt (by simp) (by simp)
  rcases hframes with hbefore | haround
  · exact Or.inl hbefore
  · exact Or.inr (Or.inr (Or.inl haround))

theorem WrittenIs.locals_take : (S.draft.finish S.options).locals.take params.length =
    params.mapIdx fun k x => ⟨x, k, 0, S.draft.code.size⟩ := by
  have hmax := h.peak_le hregs
  obtain ⟨P, Q, hparams, hbody, -, hsize, hends, -, -, -, -⟩ := h
  have hroom : S.Room P.opened.length := hparams.room ⟨Nat.zero_le _, Nat.zero_le _⟩
  have hempty : Point.Wf ⟨⟨0, 0⟩, [], 0⟩ := by simp [Point.Wf]
  have hlay := Block.lays body hmax hroom (hparams.wf hempty) hbody
  rw [Draft.finish_locals _ hstrip]
  refine List.ext_getElem? fun k => ?_
  rw [List.getElem?_take, List.getElem?_mapIdx]
  split
  · next hk =>
    obtain ⟨v, hv, hname, hslot, hstart⟩ := hparams.entry (List.getElem?_eq_getElem hk)
    simp only [Nat.zero_add, List.length_nil] at hv hslot
    -- a parameter is open from the first instruction to the last
    have hopen : k ∈ Q.opened := hlay.suffix.subset ((hparams.mem_opened k).mpr
      (Or.inr ⟨Nat.zero_le _, by rw [hparams.declared_eq]; simpa using hk⟩))
    have hend := hends.eq hopen hv
    rw [List.getElem?_map, Array.getElem?_toList, hv, List.getElem?_eq_getElem hk, Option.map_some,
      Option.map_some, hname, hslot, hstart, hend, hsize]
  · next hk => rw [List.getElem?_eq_none (Nat.not_lt.mp hk), Option.map_none]

omit hstrip in
theorem WrittenIs.numParams : (S.draft.finish S.options).numParams.toNat = params.length := by
  have hmax := h.peak_le hregs
  obtain ⟨P, Q, hparams, -, -, -, -, -, -, hcount, -⟩ := h
  have hroom : S.Room P.opened.length := hparams.room ⟨Nat.zero_le _, Nat.zero_le _⟩
  have hlen := hparams.length_eq
  have hpeak := hroom.2
  simp only [List.length_nil] at hlen
  unfold Site.Framed frameRegisters at hmax
  rw [← hcount]
  exact UInt8.toNat_ofNat_of_lt' (show S.draft.paramCount < 256 by omega)

theorem WrittenIs.tabulates : (S.draft.finish S.options).Tabulates params where
  slots := by
    intro pc hpc
    obtain ⟨n, hslots⟩ := h.slots hregs hstrip hpc
    have hlen := congrArg List.length hslots
    rw [List.length_map, List.length_range] at hlen
    rw [hslots, hlen]
  ranges := h.ranges hregs hstrip
  nested := h.nested hregs hstrip
  count := h.numParams hregs
  params := h.locals_take hregs hstrip

end

theorem Prototype.CodeOf.tabulates (hregs : o.registerLimit ≤ frameRegisters)
    (hstrip : o.strip = false) (h : q.CodeOf o params body) : q.Tabulates params := by
  obtain ⟨S, rfl, rfl, hwritten⟩ := h
  exact hwritten.tabulates hregs hstrip

/-- No two locals in range share a register. -/
theorem Prototype.Tabulates.unique (h : q.Tabulates params) (hpc : pc < q.code.size)
    {v w : LocalEntry} (hv : v ∈ q.inRange pc) (hw : w ∈ q.inRange pc) (hslot : v.slot = w.slot) :
    v = w := by
  have hnodup : ((q.inRange pc).map (·.slot)).Nodup := by
    rw [h.slots pc hpc]
    exact List.nodup_range
  exact List.inj_on_of_nodup_map hnodup hv hw hslot

/-- In every function of a chunk that compiles, the table of locals gives the stack
of registers at each instruction. The parameters of the function, which is the chunk
itself or one of the source, come first in it. -/
theorem compile_tabulates {block : Block} {o : Options} (hregs : o.registerLimit ≤ frameRegisters)
    (hstrip : o.strip = false) {p : Prototype} (h : compile block o = .ok p) :
    ∀ q ∈ p.family, q = p ∧ q.Tabulates [] ∨
      ∃ f ∈ block.functions, q.CodeOf o f.params f.body ∧ q.Tabulates f.params := by
  intro q hq
  rcases compile_family_codeOf hregs h q hq with ⟨heq, hcode⟩ | ⟨f, hf, hcode⟩
  · exact Or.inl ⟨heq, hcode.tabulates hregs hstrip⟩
  · exact Or.inr ⟨f, hf, hcode, hcode.tabulates hregs hstrip⟩

/-- A function with two parameters, a local and a loop. -/
theorem compile_tabulates_of_loop :
    let sum : FunctionBody := ⟨["from", "to"], false,
      ⟨[.declare ["total"] [.integer 0] 2,
        .numericFor "i" (.name "from") (.name "to") none
          ⟨[.assign [.name "total"] [.binary .add (.name "total") (.name "i")] 3], none, 4⟩ 3 3],
        some [.name "total"], 5⟩, 1, 5⟩
    let block : Block := ⟨[.declareFunction "sum" sum], none, 6⟩
    ∃ p, compile block {} = .ok p ∧ ∀ q ∈ p.family, q = p ∧ q.Tabulates [] ∨
      ∃ f ∈ block.functions, q.CodeOf {} f.params f.body ∧ q.Tabulates f.params := by
  intro sum block
  obtain ⟨p, hp⟩ := compile_of_isOk block {} (by decide +kernel)
  exact ⟨p, hp, compile_tabulates le_rfl rfl hp⟩

end LuaLowering
