import LuaLowering.Operand
import LuaLowering.Proofs.Progress

/-!
# Finished functions as code is read in them

The code of a construct can only be described in the finished function, where
its jumps have their targets and its locals their ends. A `Site` is a finished
function together with those around it, each with the locals that were open when
the function inside it was written. That is all that lexical scoping needs: a
name stands for the latest open local of that name, here or further out.
-/

namespace LuaLowering

variable {d d' : Draft} {S : Site} {is : List Nat} {F : Frame} {x : String} {i : Nat} {v : Local}

/-- A finished function, and the locals that were open at some point of it. -/
structure Frame where
  draft : Draft
  /-- The open locals, the latest first. -/
  opened : List Nat

/-- The close level of leaving a scope with some of a function's locals. -/
def Draft.levelOf (d : Draft) (is : List Nat) : Nat :=
  closeLevelOf (is.filterMap fun i => d.locals[i]?)

/-- The local that a name stands for. -/
def Frame.local? (F : Frame) (x : String) : Option Local :=
  (F.draft.latest? x F.opened).bind fun i => F.draft.locals[i]?

/-- The upvalue of a function at an index is the variable that a name stands for
in the functions around it. Followed from descriptor to descriptor, it ends in
the register of the innermost declaration, or at an upvalue of the outermost
function. -/
def Denotes : List Frame → Draft → Nat → String → Prop
  | [], d, u, x => ∃ c, d.upvalues[u]? = some c ∧ c.name = x
  | F :: outer, d, u, x => ∃ c, d.upvalues[u]? = some c ∧ c.name = x ∧
      match F.local? x with
      | some v => c.inStack = true ∧ c.index = v.slot
      | none => c.inStack = false ∧ Denotes outer F.draft c.index x

/-- The upvalues of the outermost function. -/
def baseOf : Draft → List Frame → Array Capture
  | d, [] => d.upvalues
  | _, F :: outer => baseOf F.draft outer

/-- How far the code of a function has got: the next position, and the number of
functions nested in it. -/
structure Mark where
  pc : Nat
  nested : Nat

/-- The mark after one more instruction. -/
def Mark.next (m : Mark) : Mark := ⟨m.pc + 1, m.nested⟩

@[simp] theorem Mark.pc_next (m : Mark) : m.next.pc = m.pc + 1 := rfl

@[simp] theorem Mark.nested_next (m : Mark) : m.next.nested = m.nested := rfl

/-- An instruction as it is asked for, before its operands are put into their fields. -/
inductive Request where
  | abc (op : Opcode) (a b c : Nat)
  | abx (op : Opcode) (a bx : Nat)
  | asbx (op : Opcode) (a : Nat) (offset : Int)
  | ax (op : Opcode) (x : Nat)

namespace Request

/-- The word for an instruction. -/
def word : Request → Instruction
  | abc op a b c => .abc op a b c
  | abx op a bx => .abx op a bx
  | asbx op a offset => .asbx op a offset
  | ax op x => .ax op x

/-- The operands are read from the word as they were asked for. Only the number of a batch
of items, that of a nested function and that of a far constant are cut to their fields. -/
def Kept (r : Request) : Prop :=
  match r with
  | abc op a b c => r.word.opcode? = some op ∧ r.word.a = a ∧ r.word.b = b ∧
      r.word.c = if op = .setList then c % 0x200 else c
  | abx op a bx => r.word.opcode? = some op ∧ r.word.a = a ∧
      r.word.bx = if op = .closure then bx % 0x40000 else bx
  | asbx op a offset => r.word.opcode? = some op ∧ r.word.a = a ∧ r.word.offset = offset
  | ax op x => r.word.opcode? = some op ∧ r.word.axField = x % 0x4000000

end Request

/-- A finished function inside those around it, the nearest first. -/
structure Site where
  options : Options
  draft : Draft
  outer : List Frame

namespace Site

/-- The local that a name stands for where some locals are open. -/
def local? (S : Site) (opened : List Nat) (x : String) : Option Local :=
  Frame.local? ⟨S.draft, opened⟩ x

/-- The upvalue at an index is what a name stands for further out. -/
def Upvalue (S : Site) (u : Nat) (x : String) : Prop :=
  u < maxUpvalues ∧ Denotes S.outer S.draft u x

/-- No function further out declares a name. -/
def Unknown (S : Site) (x : String) : Prop :=
  (∀ F ∈ S.outer, F.local? x = none) ∧ ∀ c ∈ baseOf S.draft S.outer, c.name ≠ x

/-- The most registers that are in use at one time. -/
abbrev peak (S : Site) : Nat := S.draft.registers.peak

/-- There is room for `n` registers, and the frame has them. -/
def Room (S : Site) (n : Nat) : Prop :=
  n ≤ S.options.registerLimit ∧ n ≤ S.peak

/-- An instruction stands at a position. -/
def Has (S : Site) (pc : Nat) (i : Instruction) : Prop := S.draft.code[pc]? = some i

/-- What is asked for is kept, if the constants that an instruction may name fit. -/
def Keeps (S : Site) (r : Request) : Prop :=
  S.options.constantLimit ≤ operandConstants → r.Kept

/-- One instruction is all there is between two marks. -/
structure Writes (S : Site) (r : Request) (lo hi : Mark) : Prop where
  has : S.Has lo.pc r.word
  next : hi = lo.next
  kept : S.Keeps r

/-- A jump stands at a position and lands on a target. -/
structure Jumps (S : Site) (op : Opcode) (pc a target : Nat) : Prop where
  near : ((target : Int) - pc - 1).natAbs ≤ Instruction.maxOffset
  has : S.Has pc (.asbx op a ((target : Int) - pc - 1))
  kept : S.Keeps (.asbx op a ((target : Int) - pc - 1))

/-- The entry of the constant pool at an index serves for a constant. -/
def Pool (S : Site) (i : Nat) (k : Constant) : Prop :=
  ∃ c, S.draft.constants[i]? = some c ∧ (c = k ∨ c.same k = true)

/-- The close level of leaving a scope with some locals. -/
def level (S : Site) (is : List Nat) : Nat := S.draft.levelOf is

/-- Some locals end at a position. -/
def EndAt (S : Site) (pc : Nat) (is : List Nat) : Prop :=
  ∀ i ∈ is, ∃ v, S.draft.locals[i]? = some v ∧ v.endPc = pc

/-- A site is how the functions of a workspace may end. -/
structure Ends (S : Site) (w : Workspace) : Prop where
  options : S.options = w.options
  draft : w.draft.Becomes S.draft
  outer : List.Forall₂ (fun d F => Draft.Becomes d F.draft ∧ F.opened = d.opened)
    w.enclosing S.outer
  base : baseOf S.draft S.outer = (outermost w.draft w.enclosing).upvalues

end Site

/-- An instruction with an offset lands where that leads. -/
theorem Site.Writes.jumps {op : Opcode} {a target : Nat} {n : Int} {lo hi : Mark}
    (h : S.Writes (.asbx op a n) lo hi) (hn : (target : Int) - lo.pc - 1 = n)
    (hnear : n.natAbs ≤ Instruction.maxOffset) : S.Jumps op lo.pc a target := by
  subst hn
  exact ⟨hnear, h.has, h.kept⟩

/-- If a level closes anything, it is from the register of some local on that is not
hidden. -/
theorem Draft.levelOf_eq (d : Draft) (is : List Nat) : d.levelOf is = 0 ∨
    ∃ i ∈ is, ∃ v, d.locals[i]? = some v ∧ v.isHidden = false ∧ d.levelOf is = v.slot + 1 := by
  unfold levelOf closeLevelOf
  split
  · split
    · next slot hmin =>
      obtain ⟨v, hv, rfl⟩ := List.mem_map.mp (List.min?_mem hmin)
      obtain ⟨hmem, hshown⟩ := List.mem_filter.mp hv
      obtain ⟨i, hi, hiv⟩ := List.mem_filterMap.mp hmem
      exact Or.inr ⟨i, hi, v, hiv, by simpa using hshown, rfl⟩
    · exact Or.inl rfl
  · exact Or.inl rfl

theorem Site.level_eq (S : Site) (is : List Nat) : S.level is = 0 ∨
    ∃ i ∈ is, ∃ v, S.draft.locals[i]? = some v ∧ v.isHidden = false ∧ S.level is = v.slot + 1 :=
  S.draft.levelOf_eq is

/-! ## From a workspace to how it ends -/

theorem Draft.Touched.becomes (h : d.Touched d') : d.Becomes d' :=
  (h.steady 0).becomes

/-- How a workspace may end is also how it might have ended earlier on. -/
theorem Site.Ends.back {w w' : Workspace} (h : S.Ends w') (hc : w.Continues w') :
    S.Ends w where
  options := h.options.trans hc.options
  draft := hc.draft.trans h.draft
  outer := by
    have hends := h.outer
    have htouch := hc.enclosing
    generalize w.enclosing = ds at htouch ⊢
    generalize w'.enclosing = ds' at htouch hends
    generalize S.outer = Fs at hends ⊢
    induction htouch generalizing Fs with
    | nil =>
      cases hends
      exact .nil
    | cons ht _ ih =>
      cases hends with
      | cons hF hFs =>
        exact .cons ⟨ht.becomes.trans hF.1, hF.2.trans ht.opened⟩ (ih _ hFs)
  base := h.base.trans hc.base

theorem latest?_becomes (h : d.Becomes d') (hlt : ∀ i ∈ is, i < d.locals.size) (x : String) :
    d'.latest? x is = d.latest? x is :=
  Draft.latest?_congr fun i hi => h.declarationAt? (hlt i hi)

/-- A visible name stands for the same declaration in the finished function. -/
theorem Frame.local?_of_visible (hd : d.Wf) (h : d.Becomes F.draft) (ho : F.opened = d.opened)
    (hx : d.visible.find? x = some i) (hv : d.locals[i]? = some v) :
    ∃ v', F.local? x = some v' ∧ v'.declared = v.declared ∧
      (v.captured = true → v'.captured = true) := by
  have hlatest := latest?_becomes h hd.tracks.stacked.lt_size x
  obtain ⟨v', hv', hdecl, hcap, -⟩ := h.locals i v hv
  refine ⟨v', ?_, hdecl, hcap⟩
  rw [Frame.local?, ho, hlatest, ← hd.tracks.visible x, hx]
  exact hv'

theorem Frame.local?_of_not_visible (hd : d.Wf) (h : d.Becomes F.draft) (ho : F.opened = d.opened)
    (hx : d.visible.find? x = none) : F.local? x = none := by
  have hlatest := latest?_becomes h hd.tracks.stacked.lt_size x
  rw [Frame.local?, ho, hlatest, ← hd.tracks.visible x, hx]
  rfl

theorem Site.local?_cons (hv : S.draft.locals[i]? = some v) :
    S.local? (i :: is) x = if v.name = x then some v else S.local? is x := by
  have hdecl := Draft.declarationAt?_eq_some hv
  by_cases hx : v.name = x <;>
    simp [Site.local?, Frame.local?, Draft.latest?, hdecl, Local.declared, hx, hv]

/-- Descriptors that fit the enclosing functions as they are written denote the
same variables in the finished ones. -/
theorem denotes_of_captures {ds : List Draft} {Fs : List Frame}
    (hends : List.Forall₂ (fun d F => Draft.Becomes d F.draft ∧ F.opened = d.opened) ds Fs) :
    ∀ {d d' : Draft} {u : Nat} {c : Capture}, CapturesOk d ds → (∀ e ∈ ds, e.Wf) →
      Keeps d.upvalues d'.upvalues → d.upvalues[u]? = some c → Denotes Fs d' u c.name := by
  induction hends with
  | nil =>
    intro d d' u c _ _ hkeep hc
    exact ⟨c, hkeep u c hc, rfl⟩
  | @cons e F ds Fs hF _ ih =>
    intro d d' u c hcap hwf hkeep hc
    have he := hwf e List.mem_cons_self
    have hfrom := hcap.1 c (Array.mem_of_getElem? hc)
    refine ⟨c, hkeep u c hc, rfl, ?_⟩
    unfold Capture.From at hfrom
    split at hfrom <;> rename_i hx
    · obtain ⟨hin, v, hv, hslot, -⟩ := hfrom
      obtain ⟨v', hv', hdecl, -⟩ := Frame.local?_of_visible he hF.1 hF.2 hx hv
      rw [hv']
      exact ⟨hin, hslot.symm.trans (congrArg Local.slot hdecl).symm⟩
    · obtain ⟨hin, c', hc', hname⟩ := hfrom
      rw [Frame.local?_of_not_visible he hF.1 hF.2 hx]
      refine ⟨hin, ?_⟩
      rw [← hname]
      exact ih hcap.2 (fun e' he' => hwf e' (List.mem_cons_of_mem _ he')) hF.1.upvalues hc'

end LuaLowering
