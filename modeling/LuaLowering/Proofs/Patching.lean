import LuaLowering.Proofs.Patching.Frames
import LuaLowering.Proofs.Words

/-!
# Every break is patched once

A break is a jump whose target is known only when its loop is left. This module says what
becomes of that jump in any run: leaving any other scope keeps it as it is, and leaving
the loop makes it land there, with the close level of all the scopes it leaves.
-/

namespace LuaLowering

open LowerM

variable {pc line s level e L : Nat} {b : OpenBreak} {inner outer : List Nat}

/-- What one list has a partner for in another. -/
theorem forall₂_exists_right {α β : Type} {R : α → β → Prop} {xs : List α} {ys : List β}
    (h : List.Forall₂ R xs ys) {x : α} (hx : x ∈ xs) : ∃ y ∈ ys, R x y := by
  induction h with
  | nil => cases hx
  | cons hxy _ ih =>
    rcases List.mem_cons.mp hx with rfl | hx
    · exact ⟨_, List.mem_cons_self, hxy⟩
    · obtain ⟨y, hy, hR⟩ := ih hx
      exact ⟨y, List.mem_cons_of_mem _ hy, hR⟩

namespace ScopeRun

variable {r : ScopeRun} {t : Nat}

/-- A break that is recorded has a loop. -/
theorem exists_loopAt (ht : t < r.length) (hmove : r.move t = .addBreak pc line) :
    ∃ L, r.loopAt t = some L := by
  have hleads := r.leads t ht
  rw [hmove] at hleads
  have hinLoop : Ensures False (LuaLowering.addBreak pc line) (r.state t) fun _ _ =>
      Scope.inLoop (r.state t).draft.scopes = true := by
    rw [LuaLowering.addBreak, ensures_view_bind, Scope.addBreak?_eq]
    split
    · next heq =>
      split at heq
      · assumption
      · cases heq
    · trivial
  obtain ⟨frame, hframe, hloop⟩ := List.any_eq_true.mp (hinLoop.of_ok hleads)
  obtain ⟨s, hs, hok⟩ := forall₂_exists_right (r.invariant (Nat.le_of_lt ht)).frames hframe
  refine Option.isSome_iff_exists.mp (List.find?_isSome.mpr ⟨s, hs, ?_⟩)
  rw [← hok.loop]
  exact hloop

/-- The level of leaving a scope fits the field of a jump. -/
theorem Exits.level_le (h : r.Exits s t level) : level ≤ 255 := by
  have hinv := r.invariant (Nat.le_of_lt h.time)
  exact Nat.le_trans (closeLevel_le hinv.slots h.level) hinv.limit

/-- A pending break for the instruction of a break is that break. -/
theorem FrameOk.pending_eq {frame : Scope} (h : r.FrameOk e frame s) (hb : b ∈ frame.breaks.getD [])
    (he : e ≤ r.length) (ht : t < r.length) (hmove : r.move t = .addBreak pc line)
    (hpc : b.pc = pc) : r.Pending t e s b := by
  obtain ⟨t₀, ht₀, line', hadd, hpending⟩ := h.pending b hb
  rw [hpc] at hadd
  obtain rfl := r.once t₀ (Nat.lt_of_lt_of_le ht₀ he) t ht pc line' line hadd hmove
  exact hpending

/-- Leaving a scope other than its loop does not touch a break. -/
theorem exit_keeps {endPc : Nat} (he : e < r.length) (ht : t < r.length)
    (hmove : r.move t = .addBreak pc line) (hloop : r.loopAt t = some L)
    (hexit : r.move e = .exitScope endPc) (hne : (r.scopesAt e).head? ≠ some L) :
    (r.state (e + 1)).draft.code[pc]? = (r.state e).draft.code[pc]? := by
  have hleads := r.leads e he
  rw [hexit] at hleads
  obtain ⟨-, hleaves⟩ := (closeScope_ensures endPc).of_ok hleads
  have hframes := (r.invariant (Nat.le_of_lt he)).frames
  cases hscopes : (r.state e).draft.scopes with
  | nil =>
    rw [hscopes] at hleaves
    rw [hleaves]
  | cons scope outer =>
    rw [hscopes] at hleaves hframes
    obtain ⟨level, -, hleaves⟩ := hleaves
    cases hleaves with
    | block _ _ hcode => rw [hcode]
    | loop hbreaks _ hpatched =>
      refine hpatched.rest pc fun b hb hpc => hne ?_
      rw [List.mem_reverse] at hb
      cases hs : r.scopesAt e with
      | nil =>
        rw [hs] at hframes
        cases hframes
      | cons s rest =>
        rw [hs] at hframes
        have hframe := (List.forall₂_cons.mp hframes).1
        have hpending := hframe.pending_eq (by rw [hbreaks]; exact hb) (Nat.le_of_lt he) ht hmove
          hpc
        exact hpending.loopAt.symm.trans hloop

/-- The loop of a break is left after the break. -/
theorem Exits.lt_of_addBreak (h : r.Exits L e level) (hmove : r.move t = .addBreak pc line)
    (hsplit : r.scopesAt t = inner ++ L :: outer) : t < e := by
  obtain ⟨endPc, hexit⟩ := h.move
  rcases Nat.lt_trichotomy t e with hlt | rfl | hlt
  · exact hlt
  · rw [hmove] at hexit
    cases hexit
  · exact absurd (hsplit ▸ List.mem_append_right _ List.mem_cons_self) (h.not_mem hlt)

/-- A break has all scopes inside its loop behind it when the loop is left. -/
theorem Pending.completed (hpending : r.Pending t e L b) (h : r.Exits L e level) (hlt : t < e)
    (hsplit : r.scopesAt t = inner ++ L :: outer) :
    ∃ levels, LowestLevel levels (joinClose b.close level) ∧
      List.Forall₂ (fun s l => ∃ u, t < u ∧ u ≤ e ∧ r.Exits s u l) (inner ++ [L]) levels := by
  obtain ⟨gone, left, above, outer', levels, hfollows⟩ := hpending
  have hnow : r.scopesAt e = [] ++ L :: (r.scopesAt e).tail := h.scopesAt_eq
  obtain ⟨hnil, -⟩ := r.split_unique hfollows.now hnow
  obtain ⟨-, rfl⟩ := List.append_eq_nil_iff.mp hnil
  obtain ⟨rfl, -⟩ := r.split_unique hfollows.before hsplit
  refine ⟨levels ++ [level], ?_, ?_⟩
  · rw [hfollows.close]
    exact (lowestLevel_foldl levels).join level
  · rw [List.append_nil]
    refine List.rel_append (hfollows.exits.imp ?_) (.cons ⟨e, hlt, Nat.le_refl e, h⟩ .nil)
    exact fun s l ⟨u, hu, hue, hexits⟩ => ⟨u, hu, Nat.le_of_lt hue, hexits⟩

/-- When the loop of a break is left, its jump is made to land there and to close what the
scopes it leaves had to close. -/
theorem Exits.patches (h : r.Exits L e level) (ht : t < r.length)
    (hmove : r.move t = .addBreak pc line) (hsplit : r.scopesAt t = inner ++ L :: outer)
    (hloop : r.loopAt t = some L) :
    ∃ levels close i,
      List.Forall₂ (fun s l => ∃ u, t < u ∧ u ≤ e ∧ r.Exits s u l) (inner ++ [L]) levels ∧
      LowestLevel levels close ∧ (r.state (e + 1)).draft.code[pc]? = some i ∧
      i.opcode? = some .jmp ∧ i.a = close ∧ (pc : Int) + 1 + i.offset = (r.state e).draft.pc := by
  have hlt : t < e := h.lt_of_addBreak hmove hsplit
  obtain ⟨endPc, hexit⟩ := h.move
  have hleads := r.leads e h.time
  rw [hexit] at hleads
  obtain ⟨-, hleaves⟩ := (closeScope_ensures endPc).of_ok hleads
  have hframes := (r.invariant (Nat.le_of_lt h.time)).frames
  rw [h.scopesAt_eq] at hframes
  cases hscopes : (r.state e).draft.scopes with
  | nil =>
    rw [hscopes] at hframes
    cases hframes
  | cons scope frames =>
    rw [hscopes] at hleaves hframes
    have hframe := (List.forall₂_cons.mp hframes).1
    obtain ⟨level', hlevel, hleaves⟩ := hleaves
    obtain ⟨rfl, -⟩ := EStateM.Result.ok.inj (h.level.symm.trans hlevel)
    obtain ⟨b, hb, hpc⟩ := hframe.kept t hlt pc line hmove hloop
    cases hleaves with
    | block hbreaks _ _ =>
      rw [hbreaks] at hb
      cases hb
    | loop hbreaks _ hpatched =>
      rw [hbreaks] at hb
      obtain ⟨b', hb', hpc', hreach, hcode⟩ := hpatched.jumps b (List.mem_reverse.mpr hb)
      rw [hpc] at hpc' hreach hcode
      have hb'' : b' ∈ scope.breaks.getD [] := by
        rw [hbreaks]
        exact List.mem_reverse.mp hb'
      have hpending := hframe.pending_eq hb'' (Nat.le_of_lt h.time) ht hmove hpc'
      obtain ⟨levels, hlowest, hexits⟩ := hpending.completed h hlt hsplit
      have hclose : joinClose b'.close level ≤ 255 := by
        rcases hlowest with ⟨hzero, -⟩ | ⟨-, hmem, -⟩
        · omega
        · obtain ⟨s, -, u, -, -, hu⟩ := forall₂_exists_right hexits.flip hmem
          exact hu.level_le
      refine ⟨_, _, _, hexits, hlowest, hcode, Instruction.opcode?_asbx .., ?_, ?_⟩
      · rw [Instruction.a_asbx]
        omega
      · rw [Instruction.offset_asbx _ _ hreach]
        omega

end ScopeRun

/-- Every break is patched once, when the innermost loop around it is left, and never by
leaving another scope. Its jump then lands where the loop ends, and its close level is the
lowest one that the scopes from the loop up to the innermost had when each was left. -/
theorem breaks_patched (r : ScopeRun) {t pc line : Nat} (ht : t < r.length)
    (hmove : r.move t = .addBreak pc line) :
    ∃ inner L outer, r.scopesAt t = inner ++ L :: outer ∧ (∀ s ∈ inner, r.breakable s = false) ∧
      r.breakable L = true ∧
      (∀ e endPc, e < r.length → r.move e = .exitScope endPc → (r.scopesAt e).head? ≠ some L →
        (r.state (e + 1)).draft.code[pc]? = (r.state e).draft.code[pc]?) ∧
      (∀ e level, r.Exits L e level → (∀ e' level', r.Exits L e' level' → e' = e) ∧
        ∃ levels close i,
          List.Forall₂ (fun s l => ∃ u, t < u ∧ u ≤ e ∧ r.Exits s u l) (inner ++ [L]) levels ∧
          LowestLevel levels close ∧ (r.state (e + 1)).draft.code[pc]? = some i ∧
          i.opcode? = some .jmp ∧ i.a = close ∧
          (pc : Int) + 1 + i.offset = (r.state e).draft.pc) := by
  obtain ⟨L, hloop⟩ := ScopeRun.exists_loopAt ht hmove
  obtain ⟨hbreakable, inner, outer, hsplit, hplain⟩ := ScopeRun.loopAt_eq_some_iff.mp hloop
  refine ⟨inner, L, outer, hsplit, hplain, hbreakable, fun e endPc he hexit hne => ?_,
    fun e level h => ⟨fun e' level' h' => h'.unique h, ?_⟩⟩
  · exact ScopeRun.exit_keeps he ht hmove hloop hexit hne
  · exact h.patches ht hmove hsplit hloop

/-- A local is captured after the break that leaves its block, and another block comes and goes
before the loop is left. -/
def ScopeRun.sampleSteps : List (Move × LowerM Unit) :=
  [(.enterScope true, openScope true), (.enterScope false, openScope false),
    (.declare "x" 0, do let _ ← declareLocal "x" 0),
    (.emit 1 (.asbx .jmp 0 0), do let _ ← emit 1 (.asbx .jmp 0 0)),
    (.addBreak 0 1, addBreak 0 1), (.nest, do let _ ← nested (upvalueOf? "x")),
    (.exitScope 1, closeScope 1), (.enterScope false, openScope false),
    (.exitScope 1, closeScope 1), (.exitScope 1, closeScope 1)]

/-- The run that takes these steps. -/
def ScopeRun.sample : ScopeRun where
  length := 10
  state t := (sampleSteps.take t).foldl (fun w s => stateAfter s.2 w) (.main {})
  move t := (sampleSteps.map (·.1)).getD t .nest
  start := rfl
  limit := by decide
  leads := fun t ht => by
    match t, ht with
    | 0, _ | 1, _ | 4, _ | 6, _ | 7, _ | 8, _ | 9, _ => rfl
    | 2, _ => exact ⟨0, rfl⟩
    | 3, _ => exact ⟨0, rfl⟩
    | 5, _ => exact ⟨_, (History.start _).finished (.upvalueOf "x") rfl, rfl⟩
  once := fun t ht t' ht' pc line line' h h' => by
    have hmove : ∀ u < 10, ∀ line'', (sampleSteps.map (·.1)).getD u .nest = .addBreak pc line'' →
        u = 4 := fun u hu line'' hadd => by
      match u, hu with
      | 0, _ | 1, _ | 2, _ | 3, _ | 5, _ | 6, _ | 7, _ | 8, _ | 9, _ => cases hadd
      | 4, _ => rfl
    rw [hmove t ht line h, hmove t' ht' line' h']

theorem breaks_patched_of_capture :
    ∃ r : ScopeRun, 4 < r.length ∧ r.move 4 = .addBreak 0 1 ∧ r.scopesAt 4 = [2, 1, 0] ∧
      r.Exits 1 9 0 ∧ ∃ levels i,
        List.Forall₂ (fun s l => ∃ u, 4 < u ∧ u ≤ 9 ∧ r.Exits s u l) [2, 1] levels ∧
        LowestLevel levels 1 ∧ (r.state 10).draft.code[0]? = some i ∧ i.opcode? = some .jmp ∧
        i.a = 1 ∧ (0 : Int) + 1 + i.offset = (r.state 9).draft.pc := by
  have hlength : 4 < ScopeRun.sample.length := by decide
  have hmove : ScopeRun.sample.move 4 = .addBreak 0 1 := rfl
  have hopen : ScopeRun.sample.scopesAt 4 = [2, 1, 0] := rfl
  have hexit : ScopeRun.sample.Exits 1 9 0 := ⟨by decide, ⟨1, rfl⟩, rfl, rfl⟩
  obtain ⟨inner, L, outer, hsplit, hplain, hL, -, hpatches⟩ := breaks_patched _ hlength hmove
  rw [hopen] at hsplit
  match inner, hsplit with
  | [], hsplit =>
    obtain ⟨rfl, -⟩ := List.cons.inj hsplit
    cases hL
  | [2], hsplit =>
    obtain ⟨-, hsplit⟩ := List.cons.inj hsplit
    obtain ⟨rfl, -⟩ := List.cons.inj hsplit
    obtain ⟨-, levels, close, i, hexits, hlowest, hcode, hop, ha, htarget⟩ := hpatches 9 0 hexit
    have hjump : (ScopeRun.sample.state 10).draft.code[0]? = some (.asbx .jmp 1 0) := by
      decide +kernel
    have hclose : i.a = 1 := by
      rw [Option.some.inj (hcode.symm.trans hjump)]
      decide
    rw [← ha, hclose] at hlowest
    exact ⟨_, hlength, hmove, hopen, hexit, levels, i, hexits, hlowest, hcode, hop, hclose, htarget⟩
  | s :: s' :: rest, hsplit =>
    obtain ⟨-, hsplit⟩ := List.cons.inj hsplit
    obtain ⟨rfl, -⟩ := List.cons.inj hsplit
    cases hplain 1 (List.mem_cons_of_mem _ List.mem_cons_self)

end LuaLowering
