import LuaLowering.Proofs.Contract
import LuaLowering.Proofs.Shape.Site

/-!
# What a stretch of lowering has written

Lowering is a sequence of steps, and each is described by what it left behind in
the finished function. `Wrote` is that description for the stretch between two
workspaces, and `Wrote.trans` puts stretches together. `Loads` is the same for
code that opens no scope and declares no local.

A stretch may leave holes: jumps whose target is not known yet. Nothing is
promised of the code at a hole until the jump is aimed, which fills it
(`Wrote.fill`). So a forward jump and a pending `break` are described in one way.
-/

namespace LuaLowering

namespace Workspace

/-- How far the code of the present function has got. -/
def mark (w : Workspace) : Mark := ⟨w.draft.pc, w.draft.nested.size⟩

/-- The open locals, the latest first. -/
abbrev opened (w : Workspace) : List Nat := w.draft.opened

@[simp] theorem pc_mark (w : Workspace) : w.mark.pc = w.draft.pc := rfl

@[simp] theorem nested_mark (w : Workspace) : w.mark.nested = w.draft.nested.size := rfl

theorem Wf.held {w : Workspace} (hw : w.Wf) : w.opened.length ≤ w.used := hw.draft.held

theorem Wf.used_le {w : Workspace} (hw : w.Wf) : w.used ≤ frameRegisters :=
  Nat.le_trans hw.draft.fits (hw.limit ▸ hw.small)

theorem Wf.reg_lt {w : Workspace} {r : Nat} (hw : w.Wf) (hr : r < w.used) : r < 0x100 :=
  Nat.lt_of_lt_of_le hr (Nat.le_succ_of_le hw.used_le)

end Workspace

/-- Between two workspaces, the code of a finished function is what was written,
except at the holes. -/
def Site.Settled (S : Site) (holes : List Nat) (w w' : Workspace) : Prop :=
  ∀ i, w.draft.pc ≤ i → i < w'.draft.pc → i ∉ holes → S.draft.code[i]? = w'.draft.code[i]?

/-- What was written between two workspaces. -/
structure Wrote (holes : List Nat) (w w' : Workspace) (L : Site → Prop) : Prop where
  continues : w.Continues w'
  wf : w'.Wf
  pc : w.draft.pc ≤ w'.draft.pc
  below : ∀ i, i < w.draft.pc → w'.draft.code[i]? = w.draft.code[i]?
  within : ∀ i ∈ holes, w.draft.pc ≤ i ∧ i < w'.draft.pc
  code : ∀ S : Site, S.Ends w' → S.Settled holes w w' → L S

/-- As `Wrote`, with the same scopes and locals as before. -/
structure Loads (holes : List Nat) (w w' : Workspace) (L : Site → Prop) : Prop
    extends Wrote holes w w' L where
  scopes : w'.draft.scopes = w.draft.scopes
  size : w'.draft.locals.size = w.draft.locals.size

variable {holes holes' : List Nat} {w w' w₁ w₂ : Workspace} {L L' L₁ L₂ : Site → Prop}

namespace Wrote

theorem refl (hw : w.Wf) : Wrote [] w w fun _ => True :=
  ⟨(Workspace.Steady.refl 0 w).continues, hw, Nat.le_refl _, fun _ _ => rfl,
    fun _ h => (List.not_mem_nil h).elim, fun _ _ _ => trivial⟩

theorem mono (h : Wrote holes w w' L) (hL : ∀ S : Site, S.Ends w' → L S → L' S) :
    Wrote holes w w' L' :=
  { h with code := fun S hS hset => hL S hS (h.code S hS hset) }

/-- One stretch after another. -/
theorem trans (h₁ : Wrote holes w w₁ L₁) (h₂ : Wrote holes' w₁ w₂ L₂) :
    Wrote (holes ++ holes') w w₂ fun S => L₁ S ∧ L₂ S where
  continues := h₁.continues.trans h₂.continues
  wf := h₂.wf
  pc := Nat.le_trans h₁.pc h₂.pc
  below := fun i hi => (h₂.below i (Nat.lt_of_lt_of_le hi h₁.pc)).trans (h₁.below i hi)
  within := by
    intro i hi
    have hle₁ := h₁.pc
    have hle₂ := h₂.pc
    rcases List.mem_append.mp hi with h | h
    · have := h₁.within i h
      omega
    · have := h₂.within i h
      omega
  code := by
    intro S hS hset
    refine ⟨h₁.code S (hS.back h₂.continues) fun i hlo hhi hni => ?_,
      h₂.code S hS fun i hlo hhi hni => ?_⟩
    · -- a hole of the second stretch lies beyond the first
      have hni' : i ∉ holes ++ holes' := by
        rw [List.mem_append]
        rintro (h | h)
        · exact hni h
        · have := (h₂.within i h).1
          omega
      rw [hset i hlo (Nat.lt_of_lt_of_le hhi h₂.pc) hni', h₂.below i hhi]
    · have hni' : i ∉ holes ++ holes' := by
        rw [List.mem_append]
        rintro (h | h)
        · have := (h₁.within i h).2
          omega
        · exact hni h
      exact hset i (Nat.le_trans h₁.pc hlo) hhi hni'

/-- Filling a hole: the instruction there is now settled, and everything else is
as it was. -/
theorem fill {p : Nat} {ins : Instruction} (h : Wrote (p :: holes) w w₁ L) (hp : p ∉ holes)
    (hc : w₁.Continues w₂) (hwf : w₂.Wf)
    (hcode : w₂.draft.code = w₁.draft.code.setIfInBounds p ins) :
    Wrote holes w w₂ fun S => L S ∧ S.Has p ins := by
  have hpc : w₂.draft.pc = w₁.draft.pc := by
    rw [Draft.pc, hcode, Array.size_setIfInBounds, Draft.pc]
  obtain ⟨hlo, hhi⟩ := h.within p List.mem_cons_self
  refine ⟨h.continues.trans hc, hwf, hpc ▸ h.pc, fun i hi => ?_, fun i hi => ?_,
    fun S hS hset => ⟨h.code S (hS.back hc) fun i hi₁ hi₂ hni => ?_, ?_⟩⟩
  · rw [hcode, Array.getElem?_setIfInBounds_ne (by omega), h.below i hi]
  · exact hpc ▸ h.within i (List.mem_cons_of_mem _ hi)
  · have hne : p ≠ i := fun hip => hni (hip ▸ List.mem_cons_self)
    rw [hset i hi₁ (by omega) fun hmem => hni (List.mem_cons_of_mem _ hmem), hcode,
      Array.getElem?_setIfInBounds_ne hne]
  · rw [Site.Has, hset p hlo (by omega) hp, hcode, Array.getElem?_setIfInBounds_self_of_lt hhi]

end Wrote

namespace Loads

theorem of_steady (hs : w.Steady w.draft.pc w') (hwf : w'.Wf)
    (hL : ∀ S : Site, S.Ends w' → S.Settled [] w w' → L S) : Loads [] w w' L where
  continues := hs.continues
  wf := hwf
  pc := hs.draft.pc
  below := hs.draft.code
  within := fun _ h => (List.not_mem_nil h).elim
  code := hL
  scopes := hs.draft.scopes
  size := hs.draft.locals.size

theorem refl (hw : w.Wf) : Loads [] w w fun _ => True :=
  ⟨.refl hw, rfl, rfl⟩

theorem mono (h : Loads holes w w' L) (hL : ∀ S : Site, S.Ends w' → L S → L' S) :
    Loads holes w w' L' :=
  ⟨h.toWrote.mono hL, h.scopes, h.size⟩

/-- Holes may be made anywhere, at the cost of what was known. -/
theorem punch (h : Loads holes w w' L)
    (hin : ∀ i ∈ holes', w.draft.pc ≤ i ∧ i < w'.draft.pc) :
    Loads holes' w w' fun _ => True :=
  { h with within := hin, code := fun _ _ _ => trivial }

theorem trans (h₁ : Loads holes w w₁ L₁) (h₂ : Loads holes' w₁ w₂ L₂) :
    Loads (holes ++ holes') w w₂ fun S => L₁ S ∧ L₂ S :=
  ⟨h₁.toWrote.trans h₂.toWrote, h₂.scopes.trans h₁.scopes, h₂.size.trans h₁.size⟩

theorem opened (h : Loads holes w w' L) : w'.opened = w.opened := by
  rw [Workspace.opened, Draft.opened, h.scopes, Workspace.opened, Draft.opened]

theorem options (h : Loads holes w w' L) : w'.options = w.options := h.continues.options

end Loads

end LuaLowering
