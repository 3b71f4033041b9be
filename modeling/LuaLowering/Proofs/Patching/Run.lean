import Mathlib.Data.List.Induction
import Mathlib.Data.Nat.Init
import LuaLowering.Proofs.Patching.Moves

/-!
# Every break is patched once

A run is a sequence of moves in one function. Scopes come and go during a run, and each
is named by the time from which it is open, so that a name is never used twice and the
scopes around a scope can be told from its name alone.

A break is recorded with the innermost loop. Until that loop is left, `Follows` says how
far the break has come: which of the scopes inside the loop are behind it, and that its
close level is the lowest of theirs. The depth that the builder keeps with a break is the
number of scopes around those still ahead. That is why a scope entered and left later
passes it by.
-/

namespace LuaLowering

open LowerM

variable {levels inner outer : List Nat} {level s u L : Nat} {b : OpenBreak}

/-- A run of moves, none of which fails. It begins in a function with no scope open but
its own, and no two breaks are recorded for one instruction. -/
structure ScopeRun where
  length : Nat
  state : Nat → Workspace
  move : Nat → Move
  start : (state 0).draft.scopes = [{}]
  limit : (state 0).draft.registers.limit ≤ 255
  leads : ∀ t < length, (move t).Leads (state t) (state (t + 1))
  once : ∀ t < length, ∀ t' < length, ∀ pc line line',
    move t = .addBreak pc line → move t' = .addBreak pc line' → t = t'

/-- The lowest of some close levels; zero stands for nothing to close. -/
def LowestLevel (levels : List Nat) (level : Nat) : Prop :=
  level = 0 ∧ (∀ l ∈ levels, l = 0) ∨
    level ≠ 0 ∧ level ∈ levels ∧ ∀ l ∈ levels, l ≠ 0 → level ≤ l

theorem LowestLevel.join (h : LowestLevel levels level) (l : Nat) :
    LowestLevel (levels ++ [l]) (joinClose level l) := by
  unfold joinClose LowestLevel at *
  simp only [List.mem_append, List.mem_singleton]
  grind

theorem lowestLevel_foldl (levels : List Nat) : LowestLevel levels (levels.foldl joinClose 0) := by
  induction levels using List.reverseRecOn with
  | nil => exact Or.inl ⟨rfl, fun l hl => by cases hl⟩
  | append_singleton levels l ih =>
    rw [List.foldl_append, List.foldl_cons, List.foldl_nil]
    exact ih.join l

namespace ScopeRun

variable (r : ScopeRun) {t t₀ : Nat}

/-! ## The open scopes -/

/-- The scopes that are open at a time, the innermost first, each named by the time from
which it is open. -/
def scopesAt : Nat → List Nat
  | 0 => [0]
  | t + 1 =>
    match r.move t with
    | .enterScope _ => (t + 1) :: scopesAt t
    | .exitScope _ => (scopesAt t).tail
    | _ => scopesAt t

/-- Whether a scope is that of a loop. -/
def breakable : Nat → Bool
  | 0 => false
  | t + 1 =>
    match r.move t with
    | .enterScope b => b
    | _ => false

/-- A scope is left at a time, and leaving it closes from a level on. -/
structure Exits (s t level : Nat) : Prop where
  time : t < r.length
  move : ∃ endPc, r.move t = .exitScope endPc
  innermost : (r.scopesAt t).head? = some s
  level : closeLevel (r.state t) = .ok level (r.state t)

theorem scopesAt_enter {b : Bool} (h : r.move t = .enterScope b) :
    r.scopesAt (t + 1) = (t + 1) :: r.scopesAt t := by rw [scopesAt, h]

theorem scopesAt_exit {endPc : Nat} (h : r.move t = .exitScope endPc) :
    r.scopesAt (t + 1) = (r.scopesAt t).tail := by rw [scopesAt, h]

theorem le_of_mem_scopesAt (h : s ∈ r.scopesAt t) : s ≤ t := by
  induction t with
  | zero => exact Nat.le_of_eq (List.mem_singleton.mp h)
  | succ t ih =>
    rw [scopesAt] at h
    split at h
    · rcases List.mem_cons.mp h with rfl | h
      · exact Nat.le_refl _
      · exact Nat.le_succ_of_le (ih h)
    · exact Nat.le_succ_of_le (ih (List.mem_of_mem_tail h))
    · exact Nat.le_succ_of_le (ih h)

/-- The scopes around a scope are those it was entered in. -/
theorem scopesAt_of_split (h : r.scopesAt t = inner ++ s :: outer) : r.scopesAt s = s :: outer := by
  induction t generalizing inner with
  | zero =>
    cases inner with
    | nil =>
      obtain ⟨rfl, rfl⟩ := List.cons.inj h
      rfl
    | cons x inner => simp [scopesAt] at h
  | succ t ih =>
    have hnext := h
    rw [scopesAt] at h
    split at h
    · cases inner with
      | nil =>
        obtain ⟨rfl, rfl⟩ := List.cons.inj h
        exact hnext
      | cons x inner => exact ih (List.cons.inj h).2
    · cases hnow : r.scopesAt t with
      | nil =>
        rw [hnow] at h
        simp at h
      | cons x rest =>
        rw [hnow] at h ih
        have hfrom : x :: rest = (x :: inner) ++ s :: outer := congrArg (x :: ·) h
        exact ih hfrom
    · exact ih h

/-- A scope is not among those around it. -/
theorem not_mem_outer (h : r.scopesAt t = inner ++ s :: outer) : s ∉ outer := by
  have hs := r.scopesAt_of_split h
  cases s with
  | zero =>
    obtain ⟨-, rfl⟩ := List.cons.inj hs
    exact List.not_mem_nil
  | succ s =>
    rw [scopesAt] at hs
    split at hs
    · obtain ⟨-, rfl⟩ := List.cons.inj hs
      exact fun hmem => Nat.not_succ_le_self s (r.le_of_mem_scopesAt hmem)
    · have hmem : s + 1 ∈ r.scopesAt s := List.mem_of_mem_tail (hs ▸ List.mem_cons_self)
      exact absurd (r.le_of_mem_scopesAt hmem) (Nat.not_succ_le_self s)
    · have hmem : s + 1 ∈ r.scopesAt s := hs ▸ List.mem_cons_self
      exact absurd (r.le_of_mem_scopesAt hmem) (Nat.not_succ_le_self s)

/-- A scope stands at one place. -/
theorem split_unique {inner' outer' : List Nat} (h : r.scopesAt t = inner ++ s :: outer)
    (h' : r.scopesAt t = inner' ++ s :: outer') : inner = inner' ∧ outer = outer' := by
  have houter : outer = outer' :=
    (List.cons.inj ((r.scopesAt_of_split h).symm.trans (r.scopesAt_of_split h'))).2
  subst houter
  exact ⟨List.append_cancel_right (h.symm.trans h'), rfl⟩

variable {r}

theorem Exits.scopesAt_eq (h : r.Exits s t level) : r.scopesAt t = s :: (r.scopesAt t).tail :=
  (List.cons_head?_tail h.innermost).symm

/-- A scope that was left is not open again. -/
theorem Exits.not_mem (h : r.Exits s t level) (hu : t < u) : s ∉ r.scopesAt u := by
  obtain ⟨endPc, hmove⟩ := h.move
  have hle : s ≤ t := r.le_of_mem_scopesAt (h.scopesAt_eq ▸ List.mem_cons_self)
  induction u, hu using Nat.le_induction with
  | base =>
    rw [Nat.succ_eq_add_one, r.scopesAt_exit hmove]
    have hfront : r.scopesAt t = [] ++ s :: (r.scopesAt t).tail := h.scopesAt_eq
    exact r.not_mem_outer hfront
  | succ u hu ih =>
    rw [scopesAt]
    split
    · refine fun hmem => (List.mem_cons.mp hmem).elim (fun heq => ?_) ih
      omega
    · exact fun hmem => ih (List.mem_of_mem_tail hmem)
    · exact ih

/-- A scope is left at most once. -/
theorem Exits.unique {level' : Nat} (h : r.Exits s t level) (h' : r.Exits s u level') : t = u := by
  have hmem : s ∈ r.scopesAt t := h.scopesAt_eq ▸ List.mem_cons_self
  have hmem' : s ∈ r.scopesAt u := h'.scopesAt_eq ▸ List.mem_cons_self
  rcases Nat.lt_trichotomy t u with hlt | heq | hlt
  · exact absurd hmem' (h.not_mem hlt)
  · exact heq
  · exact absurd hmem (h'.not_mem hlt)

/-! ## A pending break -/

/-- How far a break has come that was recorded at `t₀` with the loop `L`. Of the scopes
inside the loop at that time, those in `gone` have been left since and those in `left` are
still open; the ones in `above` were entered later. -/
structure Follows (r : ScopeRun) (t₀ t L : Nat) (b : OpenBreak)
    (gone left above outer levels : List Nat) : Prop where
  before : r.scopesAt t₀ = gone ++ left ++ L :: outer
  plain : ∀ s ∈ gone ++ left, r.breakable s = false
  loop : r.breakable L = true
  now : r.scopesAt t = above ++ left ++ L :: outer
  exits : List.Forall₂ (fun s level => ∃ u, t₀ < u ∧ u < t ∧ r.Exits s u level) gone levels
  close : b.close = levels.foldl joinClose 0
  depth : b.depth = left.length + outer.length

/-- A break is pending with a loop. -/
def Pending (r : ScopeRun) (t₀ t L : Nat) (b : OpenBreak) : Prop :=
  ∃ gone left above outer levels, r.Follows t₀ t L b gone left above outer levels

theorem Pending.grow {new : List Nat} (h : r.Pending t₀ t L b)
    (hnext : r.scopesAt (t + 1) = new ++ r.scopesAt t) : r.Pending t₀ (t + 1) L b := by
  obtain ⟨gone, left, above, outer, levels, h⟩ := h
  refine ⟨gone, left, new ++ above, outer, levels, h.before, h.plain, h.loop, ?_, ?_, h.close,
    h.depth⟩
  · rw [hnext, h.now]
    simp
  · exact h.exits.imp fun s level ⟨u, hu, hut, hexits⟩ => ⟨u, hu, Nat.lt_succ_of_lt hut, hexits⟩

/-- A scope that was entered later is left. -/
theorem Follows.pass {gone left above : List Nat}
    (h : r.Follows t₀ t L b gone left (s :: above) outer levels)
    (hnext : r.scopesAt (t + 1) = (r.scopesAt t).tail) : r.Pending t₀ (t + 1) L b := by
  refine ⟨gone, left, above, outer, levels, h.before, h.plain, h.loop, ?_, ?_, h.close, h.depth⟩
  · rw [hnext, h.now]
    rfl
  · exact h.exits.imp fun s level ⟨u, hu, hut, hexits⟩ => ⟨u, hu, Nat.lt_succ_of_lt hut, hexits⟩

/-- Where another loop is open inside the loop of a break, the innermost scope was entered
later than the break was recorded. -/
theorem Pending.pass {p : Nat} (h : r.Pending t₀ t L b)
    (hsplit : r.scopesAt t = inner ++ L :: outer) (hp : p ∈ inner) (hloop : r.breakable p = true)
    (hnext : r.scopesAt (t + 1) = (r.scopesAt t).tail) : r.Pending t₀ (t + 1) L b := by
  obtain ⟨gone, left, above, outer', levels, h⟩ := h
  obtain ⟨rfl, -⟩ := r.split_unique hsplit h.now
  cases above with
  | nil =>
    have hplain := h.plain p (List.mem_append_right _ hp)
    rw [hloop] at hplain
    cases hplain
  | cons s above => exact h.pass hnext

/-- When a scope that is no loop is left, the break is raised exactly if it stands in that
scope. -/
theorem Pending.leave {rest : List Nat} (h : r.Pending t₀ t L b) (ht : t₀ < t)
    (hexits : r.Exits s t level) (hs : r.scopesAt t = s :: rest) (hplain : r.breakable s = false)
    (hnext : r.scopesAt (t + 1) = rest) :
    r.Pending t₀ (t + 1) L (Scope.raise rest.length level b) := by
  obtain ⟨gone, left, above, outer, levels, h⟩ := h
  have hlength : (r.scopesAt t).length = above.length + left.length + (outer.length + 1) := by
    rw [h.now, List.length_append, List.length_append, List.length_cons]
  rw [hs, List.length_cons] at hlength
  have hdepth := h.depth
  cases above with
  | cons x above =>
    rw [List.length_cons] at hlength
    rw [Scope.raise_of_lt (by omega)]
    exact h.pass (by rw [hnext, hs]; rfl)
  | nil =>
    have hnow := hs.symm.trans h.now
    cases left with
    | nil =>
      obtain ⟨rfl, -⟩ := List.cons.inj hnow
      rw [h.loop] at hplain
      cases hplain
    | cons x left =>
      obtain ⟨rfl, hrest⟩ := List.cons.inj hnow
      rw [List.length_cons] at hdepth
      rw [List.length_nil, List.length_cons] at hlength
      rw [Scope.raise_of_le (by omega)]
      refine ⟨gone ++ [s], left, [], outer, levels ++ [level], ?_, ?_, h.loop, ?_, ?_, ?_, ?_⟩
      · rw [h.before]
        simp
      · simpa using h.plain
      · exact hnext.trans hrest
      · refine List.rel_append (h.exits.imp ?_) (.cons ⟨t, ht, Nat.lt_succ_self t, hexits⟩ .nil)
        exact fun s level ⟨u, hu, hut, hexits⟩ => ⟨u, hu, Nat.lt_succ_of_lt hut, hexits⟩
      · rw [List.foldl_append, ← h.close]
        rfl
      · show rest.length - 1 = _
        omega

/-! ## The innermost loop -/

/-- The innermost loop at a time. -/
def loopAt (r : ScopeRun) (t : Nat) : Option Nat := (r.scopesAt t).find? r.breakable

theorem loopAt_eq_some_iff :
    r.loopAt t = some L ↔ r.breakable L = true ∧
      ∃ inner outer, r.scopesAt t = inner ++ L :: outer ∧ ∀ s ∈ inner, r.breakable s = false := by
  simp [loopAt, List.find?_eq_some_iff_append]

theorem Pending.loopAt (h : r.Pending t u L b) : r.loopAt t = some L := by
  obtain ⟨gone, left, above, outer, levels, h⟩ := h
  exact loopAt_eq_some_iff.mpr ⟨h.loop, gone ++ left, outer, h.before, h.plain⟩

end ScopeRun

end LuaLowering
