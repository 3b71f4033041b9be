import LuaLowering.Proofs.Patching.Run

/-!
# The frames of a run

The builder keeps a frame for each open scope. During a run the frames are those of the
scopes that are open, and a frame holds exactly the breaks that are pending with its
scope. Each kind of move has its own lemma; the invariant of a whole run follows by
induction on time.
-/

namespace LuaLowering

open LowerM

variable {frame : Scope} {s pc line : Nat} {frames : List Scope} {ids inner : List Nat}

/-- Related lists stay related where the relation changes with the place. -/
theorem forall₂_imp_split {α β : Type} {R S : α → β → Prop} {xs : List α} {ys : List β}
    (h : List.Forall₂ R xs ys)
    (himp : ∀ x y mid post, ys = mid ++ y :: post → R x y → S x y) : List.Forall₂ S xs ys := by
  induction h with
  | nil => exact .nil
  | cons hxy _ ih =>
    refine .cons (himp _ _ [] _ rfl hxy) (ih fun x y mid post hys => ?_)
    exact himp x y (_ :: mid) post (congrArg _ hys)

namespace ScopeRun

variable {r : ScopeRun} {t : Nat}

/-! ## What a frame holds -/

/-- What a frame of the builder holds for a scope: the breaks of the scope, if it is a
loop, and nothing else. -/
structure FrameOk (r : ScopeRun) (t : Nat) (frame : Scope) (s : Nat) : Prop where
  loop : frame.breaks.isSome = r.breakable s
  pending : ∀ b ∈ frame.breaks.getD [], ∃ t₀ < t, ∃ line,
    r.move t₀ = .addBreak b.pc line ∧ r.Pending t₀ t s b
  kept : ∀ t₀ < t, ∀ pc line, r.move t₀ = .addBreak pc line → r.loopAt t₀ = some s →
    ∃ b ∈ frame.breaks.getD [], b.pc = pc

/-- A frame that a move does not touch. -/
theorem FrameOk.keep (h : r.FrameOk t frame s)
    (hpending : ∀ t₀ b, r.Pending t₀ t s b → r.Pending t₀ (t + 1) s b)
    (hmove : ∀ pc line, r.move t = .addBreak pc line → r.loopAt t ≠ some s) :
    r.FrameOk (t + 1) frame s := by
  refine ⟨h.loop, fun b hb => ?_, fun t₀ ht₀ pc line hadd hloop => ?_⟩
  · obtain ⟨t₀, ht₀, line, hadd, hp⟩ := h.pending b hb
    exact ⟨t₀, Nat.lt_succ_of_lt ht₀, line, hadd, hpending t₀ b hp⟩
  · rcases Nat.lt_succ_iff_lt_or_eq.mp ht₀ with hlt | rfl
    · exact h.kept t₀ hlt pc line hadd hloop
    · exact absurd hloop (hmove pc line hadd)

/-- A scope that is no loop has no breaks of its own. -/
theorem FrameOk.plain (hbreaks : frame.breaks = none) (hs : r.breakable s = false) (t : Nat) :
    r.FrameOk t frame s := by
  refine ⟨by rw [hbreaks, hs]; rfl, fun b hb => ?_, fun t₀ _ pc line _ hloop => ?_⟩
  · rw [hbreaks] at hb
    cases hb
  · rw [(loopAt_eq_some_iff.mp hloop).1] at hs
    cases hs

/-- Frames when a scope is entered or nothing happens to scopes. -/
theorem frames_grow {new : List Nat} (h : List.Forall₂ (r.FrameOk t) frames ids)
    (hnext : r.scopesAt (t + 1) = new ++ r.scopesAt t)
    (hmove : ∀ pc line, r.move t ≠ .addBreak pc line) :
    List.Forall₂ (r.FrameOk (t + 1)) frames ids :=
  h.imp fun _ _ hframe => hframe.keep (fun _ _ hpending => hpending.grow hnext)
    fun pc line hadd => absurd hadd (hmove pc line)

/-- Frames of scopes around a loop, when a scope inside the loop or the loop itself is left. -/
theorem frames_pass {p : Nat} (h : List.Forall₂ (r.FrameOk t) frames ids)
    (hsplit : r.scopesAt t = inner ++ ids) (hp : p ∈ inner) (hloop : r.breakable p = true)
    (hnext : r.scopesAt (t + 1) = (r.scopesAt t).tail)
    (hmove : ∀ pc line, r.move t ≠ .addBreak pc line) :
    List.Forall₂ (r.FrameOk (t + 1)) frames ids := by
  refine forall₂_imp_split h fun frame s mid post hids hframe => ?_
  refine hframe.keep (fun t₀ b hpending => ?_) fun pc line hadd => absurd hadd (hmove pc line)
  have hsplit' : r.scopesAt t = (inner ++ mid) ++ s :: post := by
    rw [hsplit, hids, List.append_assoc]
  exact hpending.pass hsplit' (List.mem_append_left _ hp) hloop hnext

/-- The new break goes to the innermost loop. -/
theorem frames_addBreak {b : OpenBreak} (h : List.Forall₂ (r.FrameOk t) frames ids)
    (hsplit : r.scopesAt t = inner ++ ids) (hinner : ∀ s ∈ inner, r.breakable s = false)
    (hmove : r.move t = .addBreak pc line) (hb : b = ⟨pc, (r.scopesAt t).length - 1, 0⟩) :
    List.Forall₂ (r.FrameOk (t + 1)) (Scope.addBreaks [b] frames) ids := by
  have hnext : r.scopesAt (t + 1) = [] ++ r.scopesAt t := by rw [scopesAt, hmove]; rfl
  induction h generalizing inner with
  | nil => exact .nil
  | @cons frame s frames ids hframe hframes ih =>
    have hloop := hframe.loop
    cases hbreaks : frame.breaks with
    | none =>
      rw [hbreaks] at hloop
      rw [Scope.addBreaks_cons_plain hbreaks]
      have hsplit' : r.scopesAt t = (inner ++ [s]) ++ ids := by simp [hsplit]
      refine .cons (.plain hbreaks hloop.symm _) (ih hsplit' ?_)
      intro s' hs'
      rcases List.mem_append.mp hs' with hs' | hs'
      · exact hinner s' hs'
      · rw [List.mem_singleton.mp hs']
        exact hloop.symm
    | some old =>
      rw [hbreaks] at hloop
      rw [Scope.addBreaks_cons_loop hbreaks]
      have hloopAt : r.loopAt t = some s :=
        loopAt_eq_some_iff.mpr ⟨hloop.symm, inner, ids, hsplit, hinner⟩
      refine .cons ⟨hloop, fun b' hb' => ?_, fun t₀ ht₀ pc' line' hadd hloop' => ?_⟩ ?_
      · rcases List.mem_cons.mp hb' with rfl | hb'
        · refine ⟨t, Nat.lt_succ_self t, line, by rw [hb]; exact hmove, [], inner, [], ids, [], ?_⟩
          refine ⟨hsplit, hinner, hloop.symm, hnext.trans hsplit, .nil, by rw [hb]; rfl, ?_⟩
          rw [hb, hsplit, List.length_append, List.length_cons]
          rfl
        · obtain ⟨t₀, ht₀, line', hadd, hpending⟩ := hframe.pending b' (by rw [hbreaks]; exact hb')
          exact ⟨t₀, Nat.lt_succ_of_lt ht₀, line', hadd, hpending.grow hnext⟩
      · rcases Nat.lt_succ_iff_lt_or_eq.mp ht₀ with hlt | rfl
        · obtain ⟨b', hb', hpc⟩ := hframe.kept t₀ hlt pc' line' hadd hloop'
          rw [hbreaks] at hb'
          exact ⟨b', List.mem_cons_of_mem _ hb', hpc⟩
        · rw [hmove] at hadd
          cases hadd
          exact ⟨b, List.mem_cons_self, by rw [hb]⟩
      · refine forall₂_imp_split hframes fun frame' s' mid post hids hframe' => ?_
        refine hframe'.keep (fun t₀ b' hpending => hpending.grow hnext) fun _ _ _ heq => ?_
        obtain rfl := Option.some.inj (hloopAt.symm.trans heq)
        refine r.not_mem_outer hsplit ?_
        rw [hids]
        exact List.mem_append_right _ List.mem_cons_self

/-- The breaks of the innermost loop around a scope are raised when the scope is left. -/
theorem frames_leave {rest : List Nat} {level : Nat} (h : List.Forall₂ (r.FrameOk t) frames ids)
    (hs : r.scopesAt t = s :: rest) (hsplit : rest = inner ++ ids) (hexits : r.Exits s t level)
    (hplain : r.breakable s = false) :
    List.Forall₂ (r.FrameOk (t + 1)) (Scope.raiseBreaks rest.length level frames) ids := by
  obtain ⟨endPc, hmove⟩ := hexits.move
  have hnext : r.scopesAt (t + 1) = (r.scopesAt t).tail := r.scopesAt_exit hmove
  have hnext' : r.scopesAt (t + 1) = rest := by rw [hnext, hs]; rfl
  induction h generalizing inner with
  | nil => exact .nil
  | @cons frame s' frames ids hframe hframes ih =>
    have hloop := hframe.loop
    cases hbreaks : frame.breaks with
    | none =>
      rw [hbreaks] at hloop
      rw [Scope.raiseBreaks, hbreaks]
      have hsplit' : rest = (inner ++ [s']) ++ ids := by simp [hsplit]
      exact .cons (.plain hbreaks hloop.symm _) (ih hsplit')
    | some old =>
      rw [hbreaks] at hloop
      rw [Scope.raiseBreaks, hbreaks]
      refine .cons ⟨hloop, fun b hb => ?_, fun t₀ ht₀ pc line hadd hloop' => ?_⟩ ?_
      · obtain ⟨b', hb', rfl⟩ := List.mem_map.mp hb
        obtain ⟨t₀, ht₀, line, hadd, hpending⟩ := hframe.pending b' (by rw [hbreaks]; exact hb')
        refine ⟨t₀, Nat.lt_succ_of_lt ht₀, line, by rw [Scope.pc_raise]; exact hadd, ?_⟩
        exact hpending.leave ht₀ hexits hs hplain hnext'
      · rcases Nat.lt_succ_iff_lt_or_eq.mp ht₀ with hlt | rfl
        · obtain ⟨b, hb, hpc⟩ := hframe.kept t₀ hlt pc line hadd hloop'
          rw [hbreaks] at hb
          exact ⟨_, List.mem_map_of_mem hb, by rw [Scope.pc_raise, hpc]⟩
        · rw [hmove] at hadd
          cases hadd
      · have hsplit' : r.scopesAt t = (s :: inner ++ [s']) ++ ids := by simp [hs, hsplit]
        have hmem : s' ∈ s :: inner ++ [s'] := List.mem_append_right _ List.mem_cons_self
        exact frames_pass hframes hsplit' hmem hloop.symm hnext
          fun pc line hadd => by rw [hmove] at hadd; cases hadd

/-! ## The invariant of a run -/

/-- What holds at every time of a run. -/
structure Invariant (r : ScopeRun) (t : Nat) : Prop where
  frames : List.Forall₂ (r.FrameOk t) (r.state t).draft.scopes (r.scopesAt t)
  slots : (r.state t).draft.SlotsBounded
  limit : (r.state t).draft.registers.limit ≤ 255

theorem invariant_zero (r : ScopeRun) : r.Invariant 0 := by
  refine ⟨?_, fun i hi => ?_, r.limit⟩
  · rw [r.start]
    exact .cons (.plain rfl rfl 0) .nil
  · rw [Draft.opened, r.start] at hi
    cases hi

theorem Invariant.enter (h : r.Invariant t) {b : Bool} (hmove : r.move t = .enterScope b)
    (hrun : openScope b (r.state t) = .ok () (r.state (t + 1))) : r.Invariant (t + 1) := by
  have hdraft : (r.state (t + 1)).draft =
      { (r.state t).draft with scopes := .opened b :: (r.state t).draft.scopes } := by
    have hopen : Ensures False (openScope b) (r.state t) fun _ w' => w'.draft =
        { (r.state t).draft with scopes := .opened b :: (r.state t).draft.scopes } := rfl
    exact hopen.of_ok hrun
  have hnext := r.scopesAt_enter hmove
  refine ⟨?_, ?_, by rw [hdraft]; exact h.limit⟩
  · have hgrow : r.scopesAt (t + 1) = [t + 1] ++ r.scopesAt t := hnext
    have hframes := frames_grow h.frames hgrow
      fun pc line hadd => by rw [hmove] at hadd; cases hadd
    rw [hdraft, hnext]
    refine .cons ⟨?_, fun b' hb' => ?_, fun t₀ ht₀ pc line hadd hloop => ?_⟩ hframes
    · rw [breakable, hmove]
      cases b <;> rfl
    · cases b <;> cases hb'
    · -- the scope is entered only now, so it was no break's loop before
      obtain ⟨-, inner, outer, hsplit, -⟩ := loopAt_eq_some_iff.mp hloop
      have hle := r.le_of_mem_scopesAt (hsplit ▸ List.mem_append_right _ List.mem_cons_self)
      omega
  · rw [hdraft]
    exact h.slots.keeps ⟨rfl, fun i v hv => ⟨v, hv, rfl⟩⟩ fun i hi => hi

theorem Invariant.declare (h : r.Invariant t) {x : String} {startPc slot : Nat}
    (hmove : r.move t = .declare x startPc)
    (hrun : declareLocal x startPc (r.state t) = .ok slot (r.state (t + 1))) :
    r.Invariant (t + 1) := by
  obtain ⟨hscopes, -, hslots, v, hv, hlt⟩ := (declareLocal_ensures x startPc).of_ok hrun
  have hnext : r.scopesAt (t + 1) = [] ++ r.scopesAt t := by rw [scopesAt, hmove]; rfl
  have hframes := frames_grow h.frames hnext fun pc line hadd => by rw [hmove] at hadd; cases hadd
  refine ⟨?_, fun i hi => ?_, Nat.le_trans (Nat.le_of_eq hslots.limit) h.limit⟩
  · rw [hnext, hscopes, List.nil_append]
    generalize r.scopesAt t = ids at hframes ⊢
    generalize (r.state t).draft.scopes = frames at hframes ⊢
    cases hframes with
    | nil => exact .nil
    | cons hframe hrest => exact .cons ⟨hframe.loop, hframe.pending, hframe.kept⟩ hrest
  · rw [Draft.opened, hscopes] at hi
    have hi' : i = (r.state t).draft.locals.size ∨ i ∈ (r.state t).draft.opened := by
      rw [Draft.opened]
      cases hs : (r.state t).draft.scopes with
      | nil =>
        rw [hs] at hi
        cases hi
      | cons scope rest =>
        rw [hs] at hi
        exact List.mem_cons.mp hi
    rcases hi' with rfl | hi'
    · exact ⟨v, hv, by rw [hslots.limit]; exact hlt⟩
    · have hkept : (r.state t).draft.KeepsSlots
          { (r.state (t + 1)).draft with scopes := (r.state t).draft.scopes } :=
        ⟨hslots.limit, hslots.slots⟩
      exact h.slots.keeps hkept (fun _ hj => hj) i hi'

/-- A move that leaves the scopes alone. -/
theorem Invariant.quiet (h : r.Invariant t) (hnext : r.scopesAt (t + 1) = r.scopesAt t)
    (hmove : ∀ pc line, r.move t ≠ .addBreak pc line)
    (hscopes : (r.state (t + 1)).draft.scopes = (r.state t).draft.scopes)
    (hslots : (r.state t).draft.KeepsSlots (r.state (t + 1)).draft) : r.Invariant (t + 1) := by
  refine ⟨?_, ?_, Nat.le_trans (Nat.le_of_eq hslots.limit) h.limit⟩
  · rw [hscopes, hnext]
    have hsame : r.scopesAt (t + 1) = [] ++ r.scopesAt t := hnext
    exact frames_grow h.frames hsame hmove
  · exact h.slots.keeps hslots fun i hi => by rwa [Draft.opened, hscopes] at hi

theorem Invariant.addBreak (h : r.Invariant t) (hmove : r.move t = .addBreak pc line)
    (hrun : LuaLowering.addBreak pc line (r.state t) = .ok () (r.state (t + 1))) :
    r.Invariant (t + 1) := by
  let b : OpenBreak := ⟨pc, (r.state t).draft.scopes.length - 1, 0⟩
  have hdraft : (r.state (t + 1)).draft =
      { (r.state t).draft with scopes := Scope.addBreaks [b] (r.state t).draft.scopes } := by
    have hadd : Ensures False (LuaLowering.addBreak pc line) (r.state t) fun _ w' => w'.draft =
        { (r.state t).draft with scopes := Scope.addBreaks [b] (r.state t).draft.scopes } := by
      rw [LuaLowering.addBreak, ensures_view_bind, Scope.addBreak?_eq]
      split
      · next heq =>
        split at heq <;> cases heq
        rfl
      · trivial
    exact hadd.of_ok hrun
  have hnext : r.scopesAt (t + 1) = r.scopesAt t := by rw [scopesAt, hmove]
  refine ⟨?_, ?_, by rw [hdraft]; exact h.limit⟩
  · rw [hdraft, hnext]
    refine frames_addBreak h.frames (List.nil_append _).symm (fun s hs => by cases hs) hmove ?_
    rw [← h.frames.length_eq]
  · rw [hdraft]
    refine h.slots.keeps ⟨rfl, fun i v hv => ⟨v, hv, rfl⟩⟩ fun i hi => ?_
    show i ∈ Scope.allLocals _
    rw [← Scope.allLocals_addBreaks [b]]
    exact hi

theorem Invariant.exit (h : r.Invariant t) (ht : t < r.length) {endPc : Nat}
    (hmove : r.move t = .exitScope endPc)
    (hrun : closeScope endPc (r.state t) = .ok () (r.state (t + 1))) : r.Invariant (t + 1) := by
  obtain ⟨hslots, hleaves⟩ := (closeScope_ensures endPc).of_ok hrun
  have hnext := r.scopesAt_exit hmove
  have hnot : ∀ pc line, r.move t ≠ .addBreak pc line := fun pc line hadd => by
    rw [hmove] at hadd
    cases hadd
  have hframes := h.frames
  cases hscopes : (r.state t).draft.scopes with
  | nil =>
    rw [hscopes] at hleaves hframes
    have hempty : r.scopesAt t = [] := by
      generalize r.scopesAt t = ids at hframes
      cases hframes
      rfl
    exact h.quiet (by rw [hnext, hempty]; rfl) hnot (by rw [hleaves]) hslots
  | cons scope outer =>
    rw [hscopes] at hleaves hframes
    obtain ⟨level, hlevel, hleaves⟩ := hleaves
    obtain ⟨s, rest, hs⟩ : ∃ s rest, r.scopesAt t = s :: rest := by
      generalize r.scopesAt t = ids at hframes
      cases hframes
      exact ⟨_, _, rfl⟩
    rw [hs] at hframes
    obtain ⟨hframe, hframes⟩ := List.forall₂_cons.mp hframes
    have hexits : r.Exits s t level := ⟨ht, ⟨endPc, hmove⟩, by rw [hs]; rfl, hlevel⟩
    have hlength := hframes.length_eq
    have houter : ∀ i ∈ Scope.allLocals outer, i ∈ (r.state t).draft.opened := fun i hi => by
      rw [Draft.opened, hscopes, List.flatMap_cons]
      exact List.mem_append_right _ hi
    refine ⟨?_, ?_, Nat.le_trans (Nat.le_of_eq hslots.limit) h.limit⟩
    · rw [hnext, hs, List.tail_cons]
      cases hleaves with
      | loop hbreaks hscopes' _ =>
        have hloop := hframe.loop
        rw [hbreaks] at hloop
        rw [hscopes']
        have hfront : r.scopesAt t = [s] ++ rest := hs
        exact frames_pass hframes hfront List.mem_cons_self hloop.symm hnext hnot
      | block hbreaks hscopes' _ =>
        have hplain := hframe.loop
        rw [hbreaks] at hplain
        rw [hscopes', hlength]
        exact frames_leave hframes hs (List.nil_append _).symm hexits hplain.symm
    · refine h.slots.keeps hslots fun i hi => houter i ?_
      rw [Draft.opened] at hi
      cases hleaves with
      | loop _ hscopes' _ => rwa [hscopes'] at hi
      | block _ hscopes' _ =>
        rw [hscopes'] at hi
        exact Scope.allLocals_raiseBreaks outer.length level outer ▸ hi

/-- One move keeps the invariant. -/
theorem Invariant.step (h : r.Invariant t) (ht : t < r.length) : r.Invariant (t + 1) := by
  have hleads := r.leads t ht
  cases hmove : r.move t with
  | enterScope b =>
    rw [hmove] at hleads
    exact h.enter hmove hleads
  | declare x startPc =>
    rw [hmove] at hleads
    obtain ⟨slot, hrun⟩ := hleads
    exact h.declare hmove hrun
  | emit line i =>
    rw [hmove] at hleads
    obtain ⟨pc, hrun⟩ := hleads
    have hemit : Ensures False (LuaLowering.emit line i) (r.state t) fun _ w' =>
        w'.draft.scopes = (r.state t).draft.scopes ∧
          (r.state t).draft.KeepsSlots w'.draft := ⟨rfl, rfl, fun _ v hv => ⟨v, hv, rfl⟩⟩
    obtain ⟨hscopes, hslots⟩ := hemit.of_ok hrun
    exact h.quiet (by rw [scopesAt, hmove]) (by simp [hmove]) hscopes hslots
  | nest =>
    rw [hmove] at hleads
    obtain ⟨inner, hist, hleave⟩ := hleads
    have hmarked := hist.worksOn.marked
    rw [← hleave] at hmarked
    exact h.quiet (by rw [scopesAt, hmove]) (by simp [hmove]) (by rw [hmarked.rest])
      hmarked.keepsSlots
  | addBreak pc line =>
    rw [hmove] at hleads
    exact h.addBreak hmove hleads
  | exitScope endPc =>
    rw [hmove] at hleads
    exact h.exit ht hmove hleads

theorem invariant (r : ScopeRun) (ht : t ≤ r.length) : r.Invariant t := by
  induction t with
  | zero => exact r.invariant_zero
  | succ t ih => exact (ih (Nat.le_of_succ_le ht)).step ht

end ScopeRun

end LuaLowering
