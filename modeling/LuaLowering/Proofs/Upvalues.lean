import LuaLowering.Proofs.Flow.Closing
import LuaLowering.Proofs.Flow.Releasing

/-!
# Upvalues are closed when their locals end

A closure that captures a register shares it with the function that made it, until a
jump closes the upvalue. Read off the finished code and its table of locals: no path
leads from a closure out of the range of a local that it captures without such a
jump, and where a jump closes a local, nothing that control reaches before it is out
of the local's range uses it any more.

The state of a `for` is left out: it is never closed, because its names are not meant
to be used. And a closure names the function that it makes only as long as the number
of that function fits its field.
-/

namespace LuaLowering

variable {S : Site} {proper : Prop} {names : List String} {P Q : Point} {v : Local} {m pc : Nat}
  {p : Prototype} {i : Instruction} {t : Int} {o : Options} {target : Nat}

/-! ## Paths -/

/-- A position is in the range of an entry of the table. -/
def LocalEntry.Spans (v : LocalEntry) (t : Int) : Prop := v.startPc ≤ t ∧ t < v.endPc

instance (v : LocalEntry) (t : Int) : Decidable (v.Spans t) := inferInstanceAs (Decidable (_ ∧ _))

namespace Prototype

/-- Control goes on from a position in the range of a local. -/
def StepsIn (p : Prototype) (v : LocalEntry) (s t : Int) : Prop := v.Spans s ∧ p.Follows s t

/-- Control goes on from a position in the range of a local, and does not close it. -/
def StepsOpen (p : Prototype) (v : LocalEntry) (s t : Int) : Prop :=
  p.StepsIn v s t ∧
    ∀ (pc : Nat) (i : Instruction), s = pc → p.code[pc]? = some i → ¬ i.Closes v.slot

theorem StepsOpen.of_code {v : LocalEntry} (hi : p.code[pc]? = some i) (hspan : v.Spans pc)
    (ht : t ∈ i.targets pc) (hopen : ¬ i.Closes v.slot) : p.StepsOpen v pc t := by
  refine ⟨⟨hspan, pc, i, rfl, hi, ht⟩, fun pc' i' hpc hi' => ?_⟩
  obtain rfl := Int.ofNat_inj.mp hpc
  rwa [Option.some.inj (hi'.symm.trans hi)]

/-- An instruction reads a register, writes it, gives it to a callee or captures it. -/
def Uses (p : Prototype) (i : Instruction) (r : Nat) : Prop :=
  (∃ s ∈ i.reads ++ i.writes ++ i.ways.flatMap (·.2), r ∈ s.toSet) ∨ (∃ base ∈ i.base?, base ≤ r) ∨
    ∃ k child, i.nested? = some k ∧ p.protos[k]? = some child ∧
      ∃ u ∈ child.upvalues, u.inStack = true ∧ u.index.toNat = r

/-- The upvalues of a function's locals are closed where these end, and not before. -/
structure ClosesUpvalues (p : Prototype) : Prop where
  /-- A local that a closure captures is closed on every path out of its range. -/
  captured : p.protos.length ≤ 0x40000 → ∀ (pc : Nat) i k child u, p.code[pc]? = some i →
    i.nested? = some k → p.protos[k]? = some child → u ∈ child.upvalues → u.inStack = true →
    u.name.toList.head? ≠ some '(' →
    ∃ v ∈ p.locals, v.name = u.name ∧ v.slot = u.index.toNat ∧
      (∀ w ∈ p.locals, w.slot = v.slot → w.Spans (pc + 1) → w = v) ∧
      ∀ t, Relation.ReflTransGen (p.StepsOpen v) (pc + 1) t → v.Spans t
  /-- A local that a jump closes is not used any more. -/
  unused : ∀ (pc : Nat) i v, p.code[pc]? = some i → v ∈ p.locals → v.Spans pc → i.Closes v.slot →
    ∀ t ∈ i.targets pc, ∀ (y : Nat) j, Relation.ReflTransGen (p.StepsIn v) t y → v.Spans y →
      p.code[y]? = some j → ¬ p.Uses j v.slot

end Prototype

/-- The entry of a local in the finished table. -/
def Local.entry (v : Local) : LocalEntry := ⟨v.name, v.slot, v.startPc, v.endPc⟩

theorem Draft.mem_finish_locals {d : Draft} (hstrip : o.strip = false) {v : LocalEntry} :
    v ∈ (d.finish o).locals ↔ ∃ w ∈ d.locals, w.entry = v := by
  rw [Draft.finish_locals _ hstrip, List.mem_map]
  simp only [Array.mem_toList_iff, Local.entry]

/-! ## Captured locals -/

/-- A path that does not close a local stays in front of what closes it. -/
theorem Site.Seals.path (h : S.Seals proper v m) {s : Int}
    (hpath : Relation.ReflTransGen ((S.draft.finish o).StepsOpen v.entry) s t)
    (hs : Between v.startPc m s) : Between v.startPc m t := by
  induction hpath with
  | refl => exact hs
  | tail _ hstep ih =>
    obtain ⟨⟨-, pc, i, rfl, hi, ht⟩, hopen⟩ := hstep
    have hstays := h pc (Int.ofNat_le.mp ih.1) (Nat.lt_succ_of_le (Int.ofNat_le.mp ih.2))
    exact (hstays.targets hi _ ht).resolve_left (hopen pc i rfl hi)

/-- What a nested function finds in a register of this one is a captured local. -/
theorem Capture.FromFrame.local_of_inStack {c : Capture} {opened : List Nat}
    (h : c.FromFrame ⟨S.draft, opened⟩) (hslot : S.Slotted opened) (hstack : c.inStack = true) :
    ∃ j ∈ opened, ∃ v, S.draft.locals[j]? = some v ∧ v.name = c.name ∧ c.index = v.slot ∧
      v.captured = true := by
  rw [Capture.FromFrame] at h
  split at h
  · next v hv =>
      obtain ⟨j, hj, hjv, hname⟩ := hslot.local_mem hv
      exact ⟨j, hj, v, hjv, hname, h.2⟩
  · rw [h.1] at hstack
    cases hstack

section

variable (h : Composed S proper names P Q) (hstrip : S.options.strip = false)

include h hstrip

/-- A closure that captures a register does so where a local has it, and control does
not leave the range of that local without closing it. -/
theorem Composed.captured (hfew : S.draft.nested.size ≤ 0x40000) {k : Nat} {child : Prototype}
    {u : Upvalue} (hi : S.Has pc i) (hk : i.nested? = some k)
    (hchild : S.draft.nested[k]? = some child) (hu : u ∈ child.upvalues) (hstack : u.inStack = true)
    (hname : u.name.toList.head? ≠ some '(') :
    ∃ v ∈ S.draft.locals, v.name = u.name ∧ v.slot = u.index.toNat ∧ v.startPc ≤ pc + 1 ∧
      ∃ m, pc < m ∧ m < v.endPc ∧ S.Seals proper v m := by
  obtain ⟨opened, a, n, rfl, ⟨f, inner, hn, hfrom, -⟩, hslot, hall⟩ :=
    h.encloses hi (by simp [hk])
  have hlt := (Array.getElem?_eq_some_iff.mp hn).1
  -- the number of the function fits its field
  obtain rfl : k = n := by
    rw [Instruction.nested?_eq (Instruction.opcode?_abx ..), Opcode.nested?, if_pos rfl,
      Instruction.bx_abx, Nat.mod_eq_of_lt (by omega)] at hk
    exact (Option.some.inj hk).symm
  obtain rfl := Option.some.inj (hchild.symm.trans hn)
  obtain ⟨c, hc, rfl⟩ := List.mem_map.mp hu
  simp only [hstrip, Bool.false_eq_true, if_false] at hname hstack ⊢
  obtain ⟨j, hj, v, hv, hsame, hindex, hcaptured⟩ :=
    (hfrom c (Array.mem_toList_iff.mp hc)).local_of_inStack hslot hstack
  obtain ⟨hstart, hclosed⟩ := hall j hj v hv
  have hshown : v.isHidden = false := by
    rw [Local.isHidden, hsame]
    simpa using hname
  refine ⟨v, Array.mem_of_getElem? hv, hsame, ?_, hstart, hclosed hcaptured hshown⟩
  have hmax := h.limited.stack
  have hpeak := hslot.length_le
  have hreg := hslot.slot_lt hj hv
  unfold frameRegisters at hmax
  rw [hindex]
  exact (UInt8.toNat_ofNat_of_lt' (show v.slot < 256 by omega)).symm

end

/-! ## Closed locals -/

theorem Local.spans_entry : v.entry.Spans pc ↔ v.InRange pc := by
  simp only [LocalEntry.Spans, Local.entry, Local.InRange]
  omega

/-- A jump leads to its target only. -/
theorem Site.Jumps.targets {a : Nat} (h : S.Jumps .jmp pc a target) (ha : a < 0x100)
    (hi : S.Has pc i) : i.targets pc = [(target : Int)] := by
  rw [hi.unique h.2, Instruction.targets, ways_jump ha (by simp)]
  simp [h.target_eq]

/-- Where a local is released, no path goes on inside its range. -/
theorem Site.Releases.path {y : Int} (h : S.Releases v target)
    (hpath : Relation.ReflTransGen ((S.draft.finish o).StepsIn v.entry) target y)
    (hy : v.entry.Spans y) : y = target ∧ ∃ again, S.Jumps .jmp target 0 again := by
  have hstart : v.entry.Spans target := by
    rcases hpath.cases_head with rfl | ⟨t, ⟨hin, -⟩, -⟩
    · exact hy
    · exact hin
  rcases h with hout | ⟨again, hjump, hbefore⟩
  · exact absurd (Local.spans_entry.mp hstart) hout
  refine ⟨?_, again, hjump⟩
  rcases hpath.cases_head with heq | ⟨t, ⟨-, pc, i, hpc, hi, ht⟩, hrest⟩
  · exact heq.symm
  -- the jump leads in front of the local, and no step is made from there
  obtain rfl := Int.ofNat_inj.mp hpc
  rw [hjump.targets (by decide) hi, List.mem_singleton] at ht
  have hfront : ¬ v.entry.Spans t := by
    rw [ht, Local.spans_entry]
    exact fun hrange => Nat.not_lt.mpr hrange.1 hbefore
  rcases hrest.cases_head with rfl | ⟨t', ⟨hin, -⟩, -⟩
  · exact absurd hy hfront
  · exact absurd hin hfront

/-- A jump uses no register. -/
theorem Prototype.not_uses_of_jmp {r : Nat} (hop : i.opcode? = some .jmp) : ¬ p.Uses i r := by
  simp [Prototype.Uses, Instruction.reads_eq hop, Instruction.writes_eq hop,
    Instruction.ways_eq hop, Instruction.base?_eq hop, Instruction.nested?_eq hop, Opcode.nested?]

theorem Composed.unused (h : Composed S proper names P Q) {j : Instruction} {y : Nat}
    (hi : S.Has pc i) (hv : v ∈ S.draft.locals) (hrange : v.InRange pc) (hcloses : i.Closes v.slot)
    (ht : t ∈ i.targets pc) (hpath : Relation.ReflTransGen ((S.draft.finish o).StepsIn v.entry) t y)
    (hy : v.entry.Spans y) (hj : S.Has y j) : ¬ (S.draft.finish o).Uses j v.slot := by
  obtain ⟨hop, hne, hle⟩ := hcloses
  obtain ⟨target, hjump, hall⟩ := h.releases hi (Instruction.Closes.closes? ⟨hop, hne, hle⟩)
  have hlt : i.a < 0x100 := Nat.mod_lt _ (by decide)
  rw [hjump.targets (by omega) hi, List.mem_singleton] at ht
  obtain ⟨heq, again, hagain⟩ := (hall v hv (by omega) hrange).path (ht ▸ hpath) hy
  obtain rfl := Int.ofNat_inj.mp heq
  obtain rfl := hj.unique hagain.2
  exact Prototype.not_uses_of_jmp (Instruction.opcode?_asbx ..)

/-! ## Functions -/

theorem Composed.closesUpvalues (h : Composed S proper names P Q) (hstrip : S.options.strip = false)
    {params : List String} (htable : (S.draft.finish S.options).Tabulates params) :
    (S.draft.finish S.options).ClosesUpvalues := by
  constructor
  case captured =>
    intro hfew pc i k child u hi hk hchild hu hstack hname
    obtain ⟨v, hv, hsame, hslot, hstart, m, hlt, hend, hseals⟩ := h.captured hstrip
      (by simpa [Draft.finish] using hfew) hi hk (by simpa [Draft.finish] using hchild) hu hstack
      hname
    have hpaths : ∀ t,
        Relation.ReflTransGen ((S.draft.finish S.options).StepsOpen v.entry) (pc + 1) t →
        v.entry.Spans t := by
      intro t hpath
      obtain ⟨hge, hle⟩ := hseals.path hpath ⟨by omega, by omega⟩
      exact ⟨hge, by simp only [Local.entry]; omega⟩
    have hmem : v.entry ∈ (S.draft.finish S.options).locals :=
      (Draft.mem_finish_locals hstrip).mpr ⟨v, hv, rfl⟩
    refine ⟨v.entry, hmem, hsame, hslot, fun w hw heq hspan => ?_, hpaths⟩
    have hin : ∀ w ∈ (S.draft.finish S.options).locals, w.Spans (pc + 1) →
        w ∈ (S.draft.finish S.options).inRange (pc + 1) := by
      intro w hw hspan
      simp only [LocalEntry.Spans] at hspan
      exact List.mem_filter.mpr ⟨hw, by simp; omega⟩
    have hsize := (htable.ranges _ hmem).2
    simp only [Local.entry] at hsize
    exact htable.unique (by omega) (hin w hw hspan) (hin _ hmem (hpaths _ .refl)) heq
  case unused =>
    intro pc i w hi hw hspan hcloses t ht y j hpath hy hj
    obtain ⟨v, hv, rfl⟩ := (Draft.mem_finish_locals hstrip).mp hw
    exact h.unused hi hv (Local.spans_entry.mp hspan) hcloses ht hpath hy hj

/-- In every function of a chunk that compiles, the upvalues of its locals are closed
where these end, and not before. -/
theorem compile_closesUpvalues {block : Block} {o : Options}
    (hregs : o.registerLimit ≤ frameRegisters) (hconsts : o.constantLimit ≤ operandConstants)
    (hstrip : o.strip = false) {p : Prototype} (h : compile block o = .ok p) :
    ∀ q ∈ p.family, q.ClosesUpvalues := by
  intro q hq
  have htable : ∃ params, q.Tabulates params := by
    rcases compile_family_codeOf hregs h q hq with ⟨-, hcode⟩ | ⟨f, -, hcode⟩
    · exact ⟨_, hcode.tabulates hregs hstrip⟩
    · exact ⟨_, hcode.tabulates hregs hstrip⟩
  obtain ⟨params, htable⟩ := htable
  obtain ⟨S, names, P, Q, rfl, rfl, hcomp⟩ := compile_composes hregs hconsts h q hq
  exact hcomp.closesUpvalues hstrip htable

/-- Locals that are captured in loops of each kind, one of which is left early. -/
theorem compile_closesUpvalues_of_loops :
    let get : FunctionBody := ⟨[], false, ⟨[], some [.name "x"], 3⟩, 3, 3⟩
    let make : Stat := .declare ["x"] [.name "n"] 2
    let keep : Stat := .assign [.name "f"] [.function get] 3
    let done : Expr := .binary .eq (.name "x") (.integer 0)
    let block : Block := ⟨[.declare ["n"] [.integer 9] 1,
      .whileLoop (.boolean true)
        ⟨[make, keep, .ifChain [⟨done, ⟨[.break 4], none, 4⟩, 4⟩]], none, 5⟩ 2,
      .repeatLoop ⟨[make, keep], none, 7⟩ done 6,
      .numericFor "x" (.integer 1) (.name "n") none ⟨[keep], none, 9⟩ 8 8], none, 10⟩
    ∃ p, compile block {} = .ok p ∧ ∀ q ∈ p.family, q.ClosesUpvalues := by
  intro get make keep done block
  obtain ⟨p, hp⟩ := compile_of_isOk block {} (by decide +kernel)
  exact ⟨p, hp, compile_closesUpvalues le_rfl le_rfl rfl hp⟩

/-- The state of a `for` is not closed. A function that got hold of it by its hidden
name would lose it when the loop ends. -/
theorem for_state_not_closed :
    let peek : FunctionBody := ⟨[], false, ⟨[], some [.name "(for index)"], 3⟩, 2, 3⟩
    let block : Block := ⟨[.numericFor "i" (.integer 1) (.integer 2) none
      ⟨[.declareFunction "f" peek], none, 4⟩ 1 1], none, 5⟩
    ∃ p i child u v, compile block {} = .ok p ∧ p.code[4]? = some i ∧ i.nested? = some 0 ∧
      p.protos[0]? = some child ∧ u ∈ child.upvalues ∧ u.inStack = true ∧ v ∈ p.locals ∧
      v.slot = u.index.toNat ∧ v.Spans 5 ∧
      ∃ t, Relation.ReflTransGen (p.StepsOpen v) 5 t ∧ ¬ v.Spans t := by
  intro peek block
  obtain ⟨p, hp⟩ := compile_of_isOk block {} (by decide +kernel)
  have hparts : (compile block {}).toOption.map
      (fun p => (p.code, p.locals, p.protos.map (·.upvalues))) =
      some (#[.abx .loadK 0 0, .abx .loadK 1 1, .abx .loadK 2 0, .asbx .forPrep 0 2,
          .abx .closure 4 0, .asbx .jmp 4 0, .asbx .forLoop 0 (-3), .abc .ret 0 1 0],
        [⟨"(for index)", 0, 3, 7⟩, ⟨"(for limit)", 1, 3, 7⟩, ⟨"(for step)", 2, 3, 7⟩,
          ⟨"i", 3, 4, 6⟩, ⟨"f", 4, 5, 6⟩],
        [[⟨true, 0, "(for index)"⟩]]) := by
    decide +kernel
  rw [hp] at hparts
  simp only [Except.toOption, Option.map_some, Option.some.injEq, Prod.mk.injEq] at hparts
  obtain ⟨hcode, hlocals, hups⟩ := hparts
  obtain ⟨child, hchild, hup⟩ := List.map_eq_singleton_iff.mp hups
  refine ⟨p, .abx .closure 4 0, child, ⟨true, 0, "(for index)"⟩, ⟨"(for index)", 0, 3, 7⟩, hp,
    by simp [hcode], by decide, by simp [hchild], by simp [hup], rfl, by simp [hlocals], rfl,
    by decide, 7, ?_, by decide⟩
  -- the jump closes what is above the state, and the loop then ends
  have hjump : p.StepsOpen ⟨"(for index)", 0, 3, 7⟩ 5 6 :=
    .of_code (i := .asbx .jmp 4 0) (by simp [hcode]) (by decide) (by decide) (by decide)
  have hloop : p.StepsOpen ⟨"(for index)", 0, 3, 7⟩ 6 7 :=
    .of_code (i := .asbx .forLoop 0 (-3)) (by simp [hcode]) (by decide) (by decide) (by decide)
  exact (Relation.ReflTransGen.single hjump).tail hloop

end LuaLowering
