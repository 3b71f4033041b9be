import LuaLowering.Proofs.Lowering.Branch

/-!
# Lowering loops

All loops end in the same way: the scope of the loop is left, which aims its
breaks and ends its locals. `LeavesLoop` says what is known then, and each loop
only adds how its own jumps are aimed.
-/

namespace LuaLowering

open LowerM

variable {safe : Prop} {w : Workspace} {w₀ w₁ w' w₂ w₃ : Workspace} {L : Site → Prop}
  {outer : List Scope} {d' d : Draft} {new : List Nat} {bs : List OpenBreak} {cond : Source}
  {cp : Part} {body : LowerM Unit} {shape : StatShape} {endPc first past delta n : Nat}
  {state names : List String} {parts : List Part} {values : List Source}

/-- The loop around a stretch of code is left. -/
structure LeavesLoop (outer : List Scope) (new : List Nat) (ends : Nat → Local → Nat)
    (L : Site → Prop) (w₀ w w' : Workspace) : Prop where
  scopes : w'.draft.scopes = outer
  used : w'.used = w'.opened.length
  mark : w'.mark = w.mark
  size : w'.draft.locals.size = w.draft.locals.size
  wrote : Wrote [] w₀ w' fun S => L S ∧ S.Ended w.draft new ends

theorem LeavesLoop.of_left {s : Scope} {ends : Nat → Local → Nat} (hwrote : Wrote [] w₀ w₁ L)
    (hcode : Recoded w w₁) (hused : w.used = w.opened.length) (hs : w.draft.scopes = s :: outer)
    (hleft : Draft.Left outer s.locals ends w₁.draft d')
    (hbreaks : Scope.BreaksBelow outer.length outer) (events : Array Event) :
    LeavesLoop outer s.locals ends L w₀ w { w₁ with draft := d', events } := by
  have hused₁ : w₁.used = w₁.opened.length := by rw [hcode.used, hcode.opened, hused]
  have hopened₁ : w₁.opened = s.locals ++ Scope.allLocals outer := by
    rw [hcode.opened]
    show Scope.allLocals w.draft.scopes = _
    rw [hs]
    rfl
  have hleave := wrote_leave hwrote.wf events hused₁ hleft hopened₁ hbreaks
  have hended : ∀ S : Site, S.Ended w₁.draft s.locals ends → S.Ended w.draft s.locals ends := by
    intro S h i hi
    rw [← hcode.locals]
    exact h i hi
  exact
    { scopes := by rw [hleft.rest]
      used := by rw [hleft.rest]; rfl
      mark := (hleft.mark events).trans hcode.mark
      size := hleft.size.trans (congrArg Array.size hcode.locals)
      wrote := (hwrote.trans hleave).mono fun S _ ⟨hL, h⟩ => ⟨hL, hended S h⟩ }

theorem closeLoop_spec (hwrote : Wrote (bs.map (·.pc)) w₀ w L)
    (horder : bs.Pairwise fun b b' => b'.pc < b.pc) (hused : w.used = w.opened.length)
    (hs : w.draft.scopes = { locals := new, breaks := some bs } :: outer)
    (hbreaks : Scope.BreaksBelow outer.length outer) (endPc : Nat) :
    Ensures safe (closeScope endPc) w fun _ w' =>
      LeavesLoop outer new (endsAt endPc) (fun S => L S ∧
        Settles S (some ⟨w.draft.pc, w.draft.levelOf new⟩) bs) w₀ w w' := by
  refine (closeScope_loop hwrote horder hused hs rfl endPc).mono fun _ w' => ?_
  rintro ⟨w₁, d', events, hcode, rfl, hleft, hdone⟩
  exact .of_left hdone hcode hused hs hleft hbreaks events

/-! ## `while` and `repeat` -/

theorem lowerWhile_lowers (hc : cond.Meets safe cp) (hb : Lowers safe body shape)
    (line lastLine : Nat) :
    Lowers safe (lowerWhile cond body line lastLine) (WhileIs cp shape) := by
  intro w hw hrest
  unfold lowerWhile
  rw [ensures_here_bind]
  refine (branchUnless_spec hc hw line).bind fun leave w₁ => ?_
  rintro ⟨hused₁, mid, rfl, hmark₁, hjump₁, hload₁⟩
  refine (openScope_spec hload₁.wf true).bind fun _ w₂ => ?_
  rintro ⟨hscopes₂, hsame₂⟩
  have hrest₂ := (hrest.loads hload₁ hused₁).rescoped hsame₂
    (by rw [hscopes₂]; exact List.cons_ne_nil _ _)
  refine (hb hsame₂.wrote.wf hrest₂).bind fun _ w₃ => ?_
  rintro ⟨bs, new, hadv⟩
  have hs₃ := hadv.scopes_loop hscopes₂
  refine (closeCaptured_spec hadv.wrote.wf hs₃ lastLine).bind fun _ w₄ => ?_
  rintro ⟨hused₄, hlocals₄, hload₄⟩
  have hle : w.draft.pc ≤ w₄.draft.pc :=
    (((hload₁.toWrote.trans hsame₂.wrote).trans hadv.wrote).trans hload₄.toWrote).pc
  rw [← bind_assoc]
  refine (jumpBack_spec hload₄.wf lastLine .jmp (by decide) hle).bind fun _ w₅ => ?_
  rintro ⟨hused₅, hmark₅, hlocals₅, hload₅⟩
  have hrest₅ := (hadv.rest.loads hload₄ hused₄).loads hload₅ hused₅
  have hs₅ : w₅.draft.scopes = { locals := new, breaks := some bs } :: w₁.draft.scopes := by
    rw [hload₅.scopes, hload₄.scopes, hs₃]
  have hwrote₅ : Wrote (bs.map (·.pc)) w₂ w₅ _ :=
    ((hadv.wrote.trans hload₄.toWrote).trans hload₅.toWrote).congr fun i => by simp
  rw [ensures_here_bind]
  refine (closeLoop_spec hwrote₅ hadv.order hrest₅.used hs₅ hload₁.wf.draft.breaks _).bind
    fun _ w₆ hleft => ?_
  rw [ensures_here_bind]
  have hjump : w₆.draft.code[mid.next.pc]? = some (.asbx .jmp 0 0) := by
    have hlt := (hload₁.within _ List.mem_cons_self).2
    rw [(hsame₂.wrote.trans hleft.wrote).below _ hlt, hjump₁]
  refine (aimJump_wrote ((hload₁.toWrote.trans hsame₂.wrote).trans hleft.wrote) List.not_mem_nil
    hjump (by decide) le_rfl).mono fun _ w₇ => ?_
  rintro ⟨hcode₇, -, hwrote⟩
  have hscopes := hleft.scopes.trans hload₁.scopes
  have hused₇ : w₇.used = w₇.opened.length := by rw [hcode₇.used, hcode₇.opened, hleft.used]
  refine ⟨[], [], .of_wrote hw hrest hwrote (hcode₇.scopes.trans hscopes) hused₇ fun S _
    ⟨⟨⟨⟨r, used, hop, htest⟩, _⟩, ⟨⟨⟨⟨hbody, hclose⟩, hback⟩, hland⟩, hended⟩⟩, hjumps⟩ exit => ?_⟩
  have hlevel₅ : w₅.draft.levelOf new = w₃.draft.levelOf new := by
    rw [Draft.levelOf, hlocals₅, hlocals₄, Draft.levelOf]
  have hlevel : S.level new = w₃.draft.levelOf new := hended.level.trans hlevel₅
  have hpc₅ : w₅.draft.pc = w₄.mark.next.pc := congrArg Mark.pc hmark₅
  have hpc₆ : w₆.draft.pc = w₄.mark.next.pc := congrArg Mark.pc (hleft.mark.trans hmark₅)
  have hpoint : w₆.point = ⟨w₄.mark.next, w.opened, w₃.draft.locals.size⟩ := by
    refine congr (congr (congrArg Point.mk (hleft.mark.trans hmark₅)) ?_) ?_
    · rw [Workspace.opened, Draft.opened, hscopes, Workspace.opened, Draft.opened]
    · rw [hleft.size, hload₅.size, hload₄.size]
  rw [hcode₇.point, hpoint]
  rw [hpc₆] at hjumps
  rw [hlevel₅, hpc₅] at hland
  refine ⟨w₁.mark, w₃.point, new, w₄.mark, ⟨r, used, mid, ?_, htest, hjumps, hmark₁⟩, ?_, ?_, ?_,
    hback, rfl, ?_⟩
  · show OperandIs S w.opened cp _ w.opened.length w.mark r used mid
    rw [← hrest.used]
    exact hop
  · rw [hlevel, ← hload₁.point, ← hsame₂.point]
    exact hbody _ hland
  · show w₃.opened = new ++ w.opened
    rw [hadv.opened hrest₂.scopes, hsame₂.opened, hload₁.opened]
  · rw [hlevel]
    exact hclose
  · show S.EndAt w₄.mark.next.pc new
    rw [← hpc₅]
    refine hended.endAt fun i hi v hv => hrest₅.started i ?_ v hv
    show i ∈ Scope.allLocals w₅.draft.scopes
    rw [hs₅]
    exact List.mem_append_left _ hi

theorem lowerRepeat_lowers (hc : cond.Meets safe cp) (hb : Lowers safe body shape) (line : Nat) :
    Lowers safe (lowerRepeat body cond line) (RepeatIs shape cp) := by
  intro w hw hrest
  unfold lowerRepeat
  refine (openScope_spec hw true).bind fun _ w₀ => ?_
  rintro ⟨hscopes₀, hsame₀⟩
  have hrest₀ := hrest.rescoped hsame₀ (by rw [hscopes₀]; exact List.cons_ne_nil _ _)
  rw [ensures_here_bind]
  refine (hb hsame₀.wrote.wf hrest₀).bind fun _ w₁ => ?_
  rintro ⟨bs, new, hadv⟩
  have hs₁ := hadv.scopes_loop hscopes₀
  refine (setLine_spec hadv.wrote.wf line).bind fun _ w₂ => ?_
  rintro ⟨hused₂, hmark₂, hload₂⟩
  rw [ensures_usedRegisters_bind]
  refine operand_freed_spec hc hload₂.wf _ w₂.used hload₂.wf.held le_rfl
    fun r w₃ w₄ hused₄ hmark₄ hload₄ => ?_
  refine (plain_spec hload₄.wf line _ _ _ _).bind fun _ w₅ => ?_
  rintro ⟨hused₅, hmark₅, hload₅⟩
  have hload₁₅ : Loads [] w₁ w₅ fun S =>
      OperandIs S w₂.opened cp .register w₂.used w₂.mark r w₃.used w₃.mark ∧
        S.Writes (.abc .test r.field 0 0) w₄.mark w₅.mark := by
    refine ((hload₂.trans hload₄).trans hload₅).mono fun S hS ⟨⟨_, hop⟩, htest⟩ => ⟨hop, ?_⟩
    have hr := (hop.small hload₂.wf (hS.back (hload₄.trans hload₅).continues)).2 rfl
    exact htest (Site.keeps_abc hr .zero .zero)
  have hrest₅ := hadv.rest.loads hload₁₅ (by omega)
  have hs₅ : w₅.draft.scopes = { locals := new, breaks := some bs } :: w.draft.scopes := by
    rw [hload₁₅.scopes, hs₁]
  refine (closeLevel_spec hload₅.wf hs₅).bind fun level w' => ?_
  rintro ⟨rfl, rfl⟩
  have hle : w₀.draft.pc ≤ w'.draft.pc := (hadv.wrote.trans hload₁₅.toWrote).pc
  rw [← bind_assoc]
  refine (jumpBack_spec hload₅.wf line .jmp (scope_level_lt hload₅.wf hs₅) hle).bind fun _ w₆ => ?_
  rintro ⟨hused₆, hmark₆, hlocals₆, hload₆⟩
  have hrest₆ := hrest₅.loads hload₆ hused₆
  have hs₆ : w₆.draft.scopes = { locals := new, breaks := some bs } :: w.draft.scopes := by
    rw [hload₆.scopes, hs₅]
  refine (closeCaptured_spec hload₆.wf hs₆ line).bind fun _ w₇ => ?_
  rintro ⟨hused₇, hlocals₇, hload₇⟩
  have hrest₇ := hrest₆.loads hload₇ hused₇
  have hs₇ : w₇.draft.scopes = { locals := new, breaks := some bs } :: w.draft.scopes := by
    rw [hload₇.scopes, hs₆]
  rw [ensures_here_bind]
  have hwrote₇ : Wrote (bs.map (·.pc)) w₀ w₇ _ :=
    (((hadv.wrote.trans hload₁₅.toWrote).trans hload₆.toWrote).trans hload₇.toWrote).congr
      fun i => by simp
  refine (closeLoop_spec hwrote₇ hadv.order hrest₇.used hs₇ hw.draft.breaks _).mono
    fun _ w₈ hleft => ?_
  have hwrote := hsame₀.wrote.trans hleft.wrote
  refine ⟨[], [], .of_wrote hw hrest hwrote hleft.scopes hleft.used fun S _
    ⟨_, ⟨⟨⟨⟨hbody, hop, htest⟩, hback⟩, hclose⟩, hland⟩, hended⟩ exit => ?_⟩
  have hlevel₆ : w₆.draft.levelOf new = w'.draft.levelOf new := by
    rw [Draft.levelOf, hlocals₆, Draft.levelOf]
  have hlevel₇ : w₇.draft.levelOf new = w'.draft.levelOf new := by
    rw [Draft.levelOf, hlocals₇, hlocals₆, Draft.levelOf]
  have hlevel : S.level new = w'.draft.levelOf new := hended.level.trans hlevel₇
  have hpc₈ : w₈.draft.pc = w₇.draft.pc := congrArg Mark.pc hleft.mark
  have hmark : w₆.mark = w₃.mark.next.next := by rw [hmark₆, hmark₅, hmark₄]
  refine ⟨w₁.point, new, r, w₃.used, w₃.mark, ?_, ?_, ?_, ?_, ?_, ?_, ?_, ?_, ?_⟩
  · rw [hlevel, ← hsame₀.point]
    rw [hlevel₇, ← hpc₈] at hland
    exact hbody _ hland
  · show w₁.opened = new ++ w.opened
    rw [hadv.opened hrest₀.scopes, hsame₀.opened]
  · show OperandIs S w₁.opened cp _ w₁.opened.length w₁.mark r w₃.used w₃.mark
    rw [← hadv.rest.used]
    rw [hload₂.opened, hused₂, hmark₂] at hop
    exact hop
  · rw [hmark₅, hmark₄] at htest
    exact htest
  · rw [hlevel]
    have hpc₅ : w'.draft.pc = w₃.mark.next.pc := congrArg Mark.pc (hmark₅.trans (congrArg _ hmark₄))
    show S.Jumps .jmp w₃.mark.next.pc _ w.draft.pc
    rw [← hpc₅, ← hsame₀.pc]
    exact hback
  · rw [hlevel, ← hlevel₆, ← hmark]
    show ClosesTo S _ w₆.mark w₈.mark
    rw [hleft.mark]
    exact hclose
  · show S.EndAt w₈.draft.pc new
    rw [hpc₈]
    refine hended.endAt fun i hi v hv => hrest₇.started i ?_ v hv
    show i ∈ Scope.allLocals w₇.draft.scopes
    rw [hs₇]
    exact List.mem_append_left _ hi
  · show w₈.opened = w.opened
    rw [Workspace.opened, Draft.opened, hleft.scopes, Workspace.opened, Draft.opened]
  · show w₈.draft.locals.size = w₁.draft.locals.size
    rw [hleft.size, hload₇.size, hload₆.size, hload₁₅.size]

/-! ## `for` -/

/-- Where the locals of a loop end whose hidden ones are prolonged. -/
def endsProlonged (endPc first past delta : Nat) : Nat → Local → Nat := fun i v =>
  endsAt endPc i v + if first ≤ i ∧ i < past then delta else 0

theorem Draft.Left.prolong {ended : List Nat} (h : Draft.Left outer ended (endsAt endPc) d d')
    (hle : first ≤ past) (hin : ∀ i, first ≤ i → i < past → i ∈ ended) :
    Draft.Left outer ended (endsProlonged endPc first past delta) d
      (d'.prolongLocals first (past - first) delta) := by
  have hget : ∀ i, (d'.prolongLocals first (past - first) delta).locals[i]? =
      d'.locals[i]?.map fun v =>
        if first ≤ i ∧ i < past then { v with endPc := v.endPc + delta } else v := by
    intro i
    rw [Draft.getElem?_prolongLocals, Nat.add_sub_cancel' hle]
  refine ⟨?_, ?_, (Draft.size_prolongLocals _ _ _ _).trans h.size, fun i v hv => ?_⟩
  · rw [Draft.prolongLocals, h.rest]
  · exact h.tracks.congr rfl fun i _ => d'.declarationAt?_prolongLocals first _ delta i
  · rw [hget, h.entry i v hv, Option.map_some]
    unfold endsProlonged
    by_cases hmem : i ∈ ended
    · rw [if_pos hmem, if_pos hmem]
      split <;> rfl
    · rw [if_neg hmem, if_neg hmem, if_neg fun hrange => hmem (hin i hrange.1 hrange.2)]

theorem Site.Ended.endAt_prolonged {S : Site}
    (h : S.Ended d new (endsProlonged endPc first past delta))
    (hstart : ∀ i ∈ new, ∀ v, d.locals[i]? = some v → v.startPc ≤ endPc)
    (hnew : ∀ i ∈ new, first ≤ i) :
    S.EndAt (endPc + delta) (new.filter (· < past)) ∧
      S.EndAt endPc (new.filter (past ≤ ·)) := by
  constructor <;> intro i hi <;> obtain ⟨hmem, hpast⟩ := List.mem_filter.mp hi <;>
    obtain ⟨v, hv, hS⟩ := h i hmem <;> refine ⟨_, hS, ?_⟩ <;>
    have hends : endsAt endPc i v = endPc := Nat.max_eq_left (hstart i hmem v hv)
  · have hlt : i < past := of_decide_eq_true hpast
    show endsProlonged endPc first past delta i v = endPc + delta
    rw [endsProlonged, hends, if_pos ⟨hnew i hmem, hlt⟩]
  · have hge : past ≤ i := of_decide_eq_true hpast
    show endsProlonged endPc first past delta i v = endPc
    rw [endsProlonged, hends, if_neg (by omega), Nat.add_zero]

/-- What entering a `for` does. -/
structure EntersFor (state names : List String) (parts : List Part) (new : List Nat)
    (w w' : Workspace) : Prop where
  wrote : Wrote [] w w' fun S => ∃ P₁ : Point, P₁.toMark = w'.mark ∧
    DeclareIs state parts S none w.point P₁ ∧ Declares S (w'.draft.pc + 1) names P₁ w'.point
  scopes : w'.draft.scopes = { locals := new, breaks := some [] } :: w.draft.scopes
  used : w'.used = w'.opened.length
  started : w'.StartedBy (w'.draft.pc + 1)
  newest : Newest (state.length + names.length) new w w'
  first : state ≠ [] → ∃ v, w'.draft.locals[w.draft.locals.size]? = some v ∧
    v.slot = w.opened.length

theorem EntersFor.opened (h : EntersFor state names parts new w w') :
    w'.opened = new ++ w.opened := by
  show Scope.allLocals w'.draft.scopes = _
  rw [h.scopes]
  rfl

theorem EntersFor.hidden_le (h : EntersFor state names parts new w w') (hstate : state.length = 3) :
    w.draft.locals.size + 3 ≤ w'.draft.locals.size := by
  rw [h.newest.size, hstate]
  omega

theorem EntersFor.hidden_mem (h : EntersFor state names parts new w w') (hstate : state.length = 3)
    {i : Nat} (hlo : w.draft.locals.size ≤ i) (hhi : i < w.draft.locals.size + 3) : i ∈ new :=
  (h.newest.mem i).mpr ⟨hlo, Nat.lt_of_lt_of_le hhi (h.hidden_le hstate)⟩

theorem enterFor_spec (hstate : state.length < 0x7fffffff) (hv : Sources.Meet safe values parts)
    (hw : w.Wf) (hrest : w.AtRest) (line : Nat) :
    Ensures safe (enterFor state values names line) w fun hidden w' =>
      hidden = w.draft.locals.size ∧ ∃ new, EntersFor state names parts new w w' := by
  unfold enterFor
  refine (setLine_spec hw line).bind fun _ w₀ => ?_
  rintro ⟨hused₀, hmark₀, hload₀⟩
  refine (openScope_spec hload₀.wf true).bind fun _ w₁ => ?_
  rintro ⟨hscopes₁, hsame₁⟩
  have hrest₁ := (hrest.loads hload₀ hused₀).rescoped hsame₁
    (by rw [hscopes₁]; exact List.cons_ne_nil _ _)
  have hpoint₁ : w₁.point = w.point := by
    rw [hsame₁.point, hload₀.point, hmark₀]
    rfl
  have hsize₁ : w₁.draft.locals.size = w.draft.locals.size := congrArg Point.declared hpoint₁
  have hopened₁ : w₁.opened = w.opened := congrArg Point.opened hpoint₁
  rw [ensures_declaredCount_bind]
  refine (lowerDeclare_spec (fun _ => hstate) hv hsame₁.wrote.wf hrest₁ line).bind fun _ w₂ => ?_
  rintro ⟨new₂, hadv₂, hnew₂, hfirst₂⟩
  rw [ensures_here_bind]
  refine (declareLocals_spec (w₂.draft.pc + 1) names hadv₂.wrote.wf hadv₂.rest.used
    hadv₂.rest.scopes).bind fun _ w₃ => ?_
  rintro ⟨new₃, hdecl⟩
  have hpc₃ : w₃.draft.pc = w₂.draft.pc := congrArg Mark.pc hdecl.mark
  have hwrote₀₁ := hload₀.toWrote.trans hsame₁.wrote
  have hnew := hnew₂.trans hdecl.newest
  refine ⟨hsize₁, new₃ ++ new₂, ?_, ?_, hdecl.used, ?_, ⟨?_, hnew.count, fun i => ?_⟩,
    fun hne => ?_⟩
  · refine ((hwrote₀₁.trans hadv₂.wrote).trans hdecl.wrote).mono
      fun S _ ⟨⟨_, hstate⟩, hnames⟩ => ⟨w₂.point, hdecl.mark.symm, ?_, ?_⟩
    · rw [← hpoint₁]
      exact hstate none (.none S)
    · rw [hpc₃]
      exact hnames
  · rw [hdecl.scopes, hadv₂.scopes, Scope.addBreaks_nil, Scope.addLocals_addLocals, hscopes₁,
      hload₀.scopes, Scope.addLocals, Scope.opened]
    simp
  · rw [hpc₃]
    exact hdecl.started _ (hadv₂.rest.started.mono (Nat.le_succ _)) le_rfl
  · rw [hnew.size, hsize₁]
  · rw [hnew.mem, hsize₁]
  · obtain ⟨v, hv, hslot⟩ := hfirst₂ hne
    obtain ⟨v', hv', hdecl', -⟩ := hdecl.wrote.continues.draft.locals _ v hv
    exact ⟨v', hsize₁ ▸ hv', (congrArg Local.slot hdecl' :).trans (hslot.trans (by rw [hopened₁]))⟩

/-- The body of a `for`, in the scope that was entered. -/
theorem EntersFor.scopes_body {holes : List Nat} {more : List Nat}
    (h : EntersFor state names parts new w w₁) (hload : Loads holes w₁ w₂ L)
    (hadv : Advances w₂ w₃ bs more shape) :
    w₃.draft.scopes = { locals := more ++ new, breaks := some bs } :: w.draft.scopes := by
  rw [hadv.scopes, hload.scopes, h.scopes, Scope.addLocals, Scope.addBreaks_cons_loop rfl,
    List.append_nil]

theorem leaveFor_spec (hwrote : Wrote (bs.map (·.pc)) w₀ w L)
    (horder : bs.Pairwise fun b b' => b'.pc < b.pc) (hused : w.used = w.opened.length)
    (hs : w.draft.scopes = { locals := new, breaks := some bs } :: outer)
    (hbreaks : Scope.BreaksBelow outer.length outer) {hidden : Nat} (hn : n ≤ w.draft.pc)
    (hsize : hidden + 3 ≤ w.draft.locals.size) (hin : ∀ i, hidden ≤ i → i < hidden + 3 → i ∈ new) :
    Ensures safe (leaveFor hidden n) w fun _ w' =>
      LeavesLoop outer new (endsProlonged (w.draft.pc - n) hidden (hidden + 3) n)
        (fun S => L S ∧ Settles S (some ⟨w.draft.pc, w.draft.levelOf new⟩) bs) w₀ w w' := by
  unfold leaveFor
  rw [ensures_here_bind, before, if_pos hn, ensures_pure_bind]
  refine (closeScope_loop hwrote horder hused hs rfl _).bind fun _ w' => ?_
  rintro ⟨w₁, d', events, hcode, rfl, hleft, hdone⟩
  have hsize' : d'.locals.size = w.draft.locals.size := by rw [hleft.size, hcode.locals]
  rw [prolongLocals, ensures_declaredCount_bind,
    if_pos ⟨Nat.le_add_right _ _, hsize' ▸ hsize⟩, ensures_update]
  exact .of_left hdone hcode hused hs (hleft.prolong (Nat.le_add_right _ _) hin) hbreaks events

/-- A `for` up to the instructions that step it: its scope is entered, a jump
skips its body, and what the body captured is closed. -/
structure ForBody (state names : List String) (parts : List Part) (shape : StatShape)
    (jump : Instruction) (bs : List OpenBreak) (new : List Nat) (w w₁ w' : Workspace) : Prop where
  wrote : Wrote (w₁.draft.pc :: bs.map (·.pc)) w w' fun S => ∃ P₁ Q : Point,
    P₁.pc = w₁.draft.pc ∧ DeclareIs state parts S none w.point P₁ ∧
    Declares S (P₁.pc + 1) names P₁ w₁.point ∧
    (∀ exit, Settles S exit bs → shape S exit (w₁.point.at w₁.mark.next) Q) ∧
    Q.opened = new ++ w.opened ∧ Q.declared = w'.draft.locals.size ∧
    ClosesTo S (w'.draft.levelOf new) Q.toMark w'.mark
  scopes : w'.draft.scopes = { locals := new, breaks := some bs } :: w.draft.scopes
  rest : w'.AtRest
  continues : w₁.Continues w'
  skip : w₁.draft.pc < w'.draft.pc
  code : w'.draft.code[w₁.draft.pc]? = some jump
  out : w₁.draft.pc ∉ bs.map (·.pc)
  within : ∀ i ∈ bs.map (·.pc), i < w'.draft.pc
  order : bs.Pairwise fun b b' => b'.pc < b.pc
  hidden : w.draft.locals.size + 3 ≤ w'.draft.locals.size
  mem : ∀ i, w.draft.locals.size ≤ i → i < w.draft.locals.size + 3 → i ∈ new
  ge : ∀ i ∈ new, w.draft.locals.size ≤ i

theorem forBody_spec {α : Type} {entered : List Nat} {k : Nat → LowerM α} {Q : α → Workspace → Prop}
    (hstate : state.length = 3) (hent : EntersFor state names parts entered w w₁)
    (hb : Lowers safe body shape) (jumpLine lastLine : Nat) (op : Opcode) (a : Nat)
    (hk : ∀ bs new w', ForBody state names parts shape (.asbx op a 0) bs new w w₁ w' →
      Ensures safe (k w₁.draft.pc) w' Q) :
    Ensures safe (do
      let jump ← Emit.asbx jumpLine op a 0
      body
      closeCaptured lastLine
      k jump) w₁ Q := by
  refine (asbx_hole hent.wrote.wf jumpLine op a).bind fun jump w₂ => ?_
  rintro ⟨rfl, hused₂, hmark₂, hjump₂, hload₂⟩
  have hpc₂ : w₂.draft.pc = w₁.draft.pc + 1 := congrArg Mark.pc hmark₂
  have hrest₂ : w₂.AtRest :=
    ⟨by rw [hused₂, hent.used, hload₂.opened],
      by rw [hload₂.scopes, hent.scopes]; exact List.cons_ne_nil _ _,
      hpc₂ ▸ hent.started.loads hload₂⟩
  refine (hb hload₂.wf hrest₂).bind fun _ w₃ => ?_
  rintro ⟨bs, more, hadv⟩
  have hs₃ := hent.scopes_body hload₂ hadv
  refine (closeCaptured_spec hadv.wrote.wf hs₃ lastLine).bind fun _ w₄ => ?_
  rintro ⟨hused₄, hlocals₄, hload₄⟩
  have hlevel₄ : w₄.draft.levelOf (more ++ entered) = w₃.draft.levelOf (more ++ entered) := by
    rw [Draft.levelOf, hlocals₄, Draft.levelOf]
  have hwrote₂₄ := hadv.wrote.trans hload₄.toWrote
  have hbreaks : ∀ i ∈ bs.map (·.pc), w₂.draft.pc ≤ i ∧ i < w₄.draft.pc :=
    fun i hi => hwrote₂₄.within i (List.mem_append_left _ hi)
  have hpc₂₄ := hwrote₂₄.pc
  have hhidden := hent.hidden_le hstate
  refine hk bs (more ++ entered) w₄
    ⟨?_, by rw [hload₄.scopes, hs₃], hadv.rest.loads hload₄ hused₄,
      hload₂.continues.trans hwrote₂₄.continues, by omega, ?_,
      fun hmem => ?_, fun i hi => (hbreaks i hi).2, hadv.order, ?_, fun i hlo hhi => ?_,
      fun i hi => ?_⟩
  · refine (((hent.wrote.trans hload₂.toWrote).trans hwrote₂₄).congr fun i => by simp).mono
      fun S _ h => ?_
    obtain ⟨⟨⟨P₁, hP₁, hdeclare, hnames⟩, -⟩, hbody, hclose⟩ := h
    have hpc₁ : P₁.pc = w₁.draft.pc := congrArg Mark.pc hP₁
    refine ⟨P₁, w₃.point, hpc₁, hdeclare, hpc₁ ▸ hnames, fun exit hexit => ?_, ?_, ?_, ?_⟩
    · rw [← hmark₂, ← hload₂.point]
      exact hbody exit hexit
    · show w₃.opened = more ++ entered ++ w.opened
      rw [hadv.opened hrest₂.scopes, hload₂.opened, hent.opened, List.append_assoc]
    · exact hload₄.size.symm
    · rw [hlevel₄]
      exact hclose
  · rw [hwrote₂₄.below _ (by omega), hjump₂]
  · have := (hbreaks _ hmem).1
    omega
  · rw [hload₄.size]
    exact Nat.le_trans (hload₂.size ▸ hhidden) hadv.wrote.continues.draft.size_le
  · exact List.mem_append_right _ (hent.hidden_mem hstate hlo hhi)
  · rcases List.mem_append.mp hi with hmore | hentered
    · have hge := hadv.size_le hrest₂.scopes i hmore
      rw [hload₂.size] at hge
      omega
    · exact ((hent.newest.mem i).mp hentered).1

/-- A `for` is left after its last `n` instructions. -/
theorem ForBody.leave {jump : Instruction} (h : ForBody state names parts shape jump bs new w w₁ w₂)
    (hw : w.Wf) (hrest : w.AtRest) (hwrote : Wrote (bs.map (·.pc)) w w₃ L)
    (hused : w₃.used = w₂.used) (hscopes : w₃.draft.scopes = w₂.draft.scopes)
    (hlocals : w₃.draft.locals = w₂.draft.locals) (hpc : w₃.draft.pc = w₂.draft.pc + n)
    {shape' : StatShape} (hshape : ∀ S : Site, L S → S.level new = w₂.draft.levelOf new →
      Settles S (some ⟨w₃.draft.pc, S.level new⟩) bs →
      S.EndAt (w₂.draft.pc + n) (new.filter (· < w.draft.locals.size + 3)) →
      S.EndAt w₂.draft.pc (new.filter (w.draft.locals.size + 3 ≤ ·)) →
      ∀ exit, shape' S exit w.point ⟨w₃.mark, w.opened, w₂.draft.locals.size⟩) :
    Ensures safe (leaveFor w.draft.locals.size n) w₃ fun _ w' =>
      ∃ bs new, Advances w w' bs new shape' := by
  have hopened : w₃.opened = w₂.opened := by
    rw [Workspace.opened, Draft.opened, hscopes, Workspace.opened, Draft.opened]
  refine (leaveFor_spec hwrote h.order (by rw [hused, hopened, h.rest.used])
    (hscopes.trans h.scopes) hw.draft.breaks (by omega) (hlocals ▸ h.hidden) h.mem).mono
    fun _ w₄ hleft => ?_
  have hpc' : w₃.draft.pc - n = w₂.draft.pc := by omega
  have hlevel₃ : w₃.draft.levelOf new = w₂.draft.levelOf new := by
    rw [Draft.levelOf, hlocals, Draft.levelOf]
  refine ⟨[], [], .of_wrote hw hrest hleft.wrote hleft.scopes hleft.used
    fun S _ hS exit => ?_⟩
  obtain ⟨⟨hL, hland⟩, hended⟩ := hS
  rw [hpc'] at hended
  obtain ⟨hhidden, hothers⟩ := hended.endAt_prolonged (fun i hi v hv => by
    refine h.rest.started i ?_ v (hlocals ▸ hv)
    show i ∈ Scope.allLocals w₂.draft.scopes
    rw [h.scopes]
    exact List.mem_append_left _ hi) h.ge
  have hpoint : w₄.point = ⟨w₃.mark, w.opened, w₂.draft.locals.size⟩ := by
    refine congr (congr (congrArg Point.mk hleft.mark) ?_) ?_
    · rw [Workspace.opened, Draft.opened, hleft.scopes, Workspace.opened, Draft.opened]
    · rw [hleft.size, hlocals]
  rw [hpoint]
  rw [← hended.level] at hland
  exact hshape S hL (hended.level.trans hlevel₃) hland hhidden hothers exit

theorem lowerNumericFor_lowers {var : String} {init limit step : Source} {ip lp sp : Part}
    (hi : init.Meets safe ip) (hl : limit.Meets safe lp) (hst : step.Meets safe sp)
    (hb : Lowers safe body shape) (forLine doLine lastLine : Nat) :
    Lowers safe (lowerNumericFor var init limit step body forLine doLine lastLine)
      (NumericForIs var ip lp sp shape) := by
  intro w hw hrest
  unfold lowerNumericFor
  have hvalues : Sources.Meet safe [init, limit, step] [ip, lp, sp] :=
    .cons hi (.cons hl (.cons hst .nil))
  refine (enterFor_spec (by decide) hvalues hw hrest forLine).bind fun hidden w₁ => ?_
  rintro ⟨rfl, entered, hent⟩
  have hopened₁ : w₁.opened.length = w.opened.length + 4 := by
    rw [hent.opened, List.length_append, hent.newest.count, Nat.add_comm]
    rfl
  have hbase : w₁.used - 4 = w.opened.length := by rw [hent.used, hopened₁]; rfl
  have ha := hent.wrote.wf.reg_lt (show w.opened.length < w₁.used by rw [hent.used]; omega)
  rw [ensures_usedRegisters_bind, before, if_pos (by rw [hent.used]; omega),
    ensures_pure_bind, hbase]
  refine forBody_spec rfl hent hb doLine lastLine .forPrep _ fun bs new w₂ hfor => ?_
  refine ((asbx_hole hfor.wrote.wf forLine .forLoop w.opened.length).and
    (asbx_locals forLine .forLoop w.opened.length)).bind fun loop w₃ => ?_
  rintro ⟨⟨rfl, hused₃, hmark₃, hloop₃, hload₃⟩, hlocals₃⟩
  have hpc₃ : w₃.draft.pc = w₂.draft.pc + 1 := congrArg Mark.pc hmark₃
  have hskip := hfor.skip
  have hwrote₃ : Wrote (w₁.draft.pc :: w₂.draft.pc :: bs.map (·.pc)) w w₃ _ :=
    (hfor.wrote.trans hload₃.toWrote).congr fun i => by grind
  -- the jump into the loop
  have hprep₃ : w₃.draft.code[w₁.draft.pc]? = some (.asbx .forPrep w.opened.length 0) := by
    rw [hload₃.below _ hfor.skip, hfor.code]
  have hout₃ : w₁.draft.pc ∉ w₂.draft.pc :: bs.map (·.pc) := by
    rw [List.mem_cons]
    rintro (heq | hmem)
    · omega
    · exact hfor.out hmem
  refine (aimJump_wrote hwrote₃ hout₃ hprep₃ ha (by omega)).bind fun _ w₄ => ?_
  rintro ⟨hcode₄, hkeep₄, hwrote₄⟩
  -- the jump back to its body
  have hloop₄ : w₄.draft.code[w₂.draft.pc]? = some (.asbx .forLoop w.opened.length 0) := by
    rw [hkeep₄ _ (by omega), hloop₃]
  have hout₄ : w₂.draft.pc ∉ bs.map (·.pc) := fun hmem => Nat.lt_irrefl _ (hfor.within _ hmem)
  have hback₄ : w₁.draft.pc + 1 ≤ w₄.draft.pc := by rw [hcode₄.pc]; omega
  refine (aimJump_wrote hwrote₄ hout₄ hloop₄ ha hback₄).bind fun _ w₅ => ?_
  rintro ⟨hcode₅, -, hwrote₅⟩
  have hcode := hcode₄.trans hcode₅
  refine hfor.leave hw hrest hwrote₅ (hcode.used.trans hused₃) (hcode.scopes.trans hload₃.scopes)
    (hcode.locals.trans hlocals₃) (hcode.pc.trans hpc₃) fun S hL hlevel hexit hhidden hothers _ =>
    ?_
  obtain ⟨⟨⟨⟨P₁, Q, hpc₁, hdeclare, hnames, hbody, hopened, hdeclared, hclose⟩, _⟩, hprep⟩,
    hloop⟩ := hL
  rw [← hlevel] at hclose
  rw [← hpc₁] at hprep hloop
  rw [hcode.mark, hmark₃, ← hdeclared]
  have hpc₅ : w₅.draft.pc = w₂.mark.next.pc := hcode.pc.trans hpc₃
  rw [hpc₅] at hexit
  exact ⟨P₁, w₁.point, Q, new, w₂.mark, hdeclare, hnames, hprep, hbody _ hexit, hopened, hclose,
    hloop, rfl, hhidden, hothers⟩

theorem lowerGenericFor_lowers (hv : Sources.Meet safe values parts) (hb : Lowers safe body shape)
    (doLine lastLine : Nat) :
    Lowers safe (lowerGenericFor names values body doLine lastLine)
      (GenericForIs names parts shape) := by
  intro w hw hrest
  unfold lowerGenericFor
  refine (enterFor_spec (by decide) hv hw hrest doLine).bind fun hidden w₁ => ?_
  rintro ⟨rfl, entered, hent⟩
  have hregs : w.opened.length + (3 + names.length) ≤ 255 := by
    have hmax : w₁.used ≤ 255 := hent.wrote.wf.used_le
    rw [hent.used, hent.opened, List.length_append, hent.newest.count, Nat.add_comm] at hmax
    exact hmax
  refine forBody_spec rfl hent hb doLine lastLine .jmp 0 fun bs new w₂ hfor => ?_
  rw [ensures_here_bind]
  refine (aimJump_wrote hfor.wrote hfor.out hfor.code (by decide) le_rfl).bind
    fun _ w₃ => ?_
  rintro ⟨hcode₃, -, hwrote₃⟩
  -- the generator is the first local of the loop
  obtain ⟨v, hv₃, hslot⟩ : ∃ v, w₃.draft.locals[w.draft.locals.size]? = some v ∧
      v.slot = w.opened.length := by
    obtain ⟨v, hv, hslot⟩ := hent.first (List.cons_ne_nil _ _)
    obtain ⟨v', hv', hdecl, -⟩ := hfor.continues.draft.locals _ v hv
    exact ⟨v', hcode₃.locals ▸ hv', (congrArg Local.slot hdecl :).trans hslot⟩
  rw [localAt, bind_assoc, ensures_view_bind, hv₃, ensures_pure_bind, hslot]
  refine ((plain_spec hwrote₃.wf doLine .tForCall _ 0 _).and (plain_locals doLine _ _ _ _)).bind
    fun _ w₄ => ?_
  rintro ⟨⟨hused₄, hmark₄, hload₄⟩, hlocals₄⟩
  have hpc₄ : w₄.draft.pc = w₂.draft.pc + 1 :=
    (congrArg Mark.pc hmark₄).trans (by rw [← hcode₃.pc]; rfl)
  have hskip := hfor.skip
  rw [← bind_assoc]
  refine (jumpBack_spec hload₄.wf doLine .tForLoop (show w.opened.length + 2 < _ by omega)
    (show w₁.draft.pc + 1 ≤ _ by omega)).bind fun _ w₅ => ?_
  rintro ⟨hused₅, hmark₅, hlocals₅, hload₅⟩
  have hmark : w₅.mark = w₂.mark.next.next := by rw [hmark₅, hmark₄, hcode₃.mark]
  have hwrote₅ : Wrote (bs.map (·.pc)) w w₅ _ :=
    ((hwrote₃.trans hload₄.toWrote).trans hload₅.toWrote).congr fun i => by simp
  refine hfor.leave hw hrest hwrote₅ (by rw [hused₅, hused₄, hcode₃.used])
    (by rw [hload₅.scopes, hload₄.scopes, hcode₃.scopes])
    (by rw [hlocals₅, hlocals₄, hcode₃.locals])
    (show w₅.draft.pc = w₂.draft.pc + 2 from congrArg Mark.pc hmark)
    fun S hL hlevel hexit hhidden hothers _ => ?_
  obtain ⟨⟨⟨⟨P₁, Q, hpc₁, hdeclare, hnames, hbody, hopened, hdeclared, hclose⟩, henter⟩, hcall⟩,
    hloop⟩ := hL
  rw [← hlevel] at hclose
  rw [← hpc₁] at henter hloop
  have hcall := hcall (Site.keeps_abc (by omega) .zero (.of_narrow (by omega)))
  rw [hmark₄, hcode₃.mark] at hcall
  rw [hpc₄] at hloop
  have hpc₅ : w₅.draft.pc = w₂.mark.next.next.pc := congrArg Mark.pc hmark
  rw [hpc₅] at hexit
  rw [hmark, ← hdeclared]
  exact ⟨P₁, w₁.point, Q, new, w₂.mark, hdeclare, hnames, henter, hbody _ hexit, hopened, hclose,
    hcall, hloop, rfl, hhidden, hothers⟩

end LuaLowering
