import LuaLowering.Proofs.Flow.Statement
import LuaLowering.Proofs.Sequence.Source

/-!
# Instructions in sequence

A call or `...` may leave results whose number is not known before it is run. The
instruction behind it has to take them, since nothing else says how many there
are, and an instruction that takes such results must find some. So code is scanned
with a state, the results that have just been left open: each instruction takes
exactly those, and leaves its own.

A piece of code is `Linked` when the scan goes through it. Where two pieces meet
with nothing open, the scan goes through both. Jumps do not follow the scan, and
so they have to land where it has nothing open: on a joint.
-/

namespace LuaLowering

/-- Results that have been left open: where they begin, and whether they are those
of a call in tail position. -/
structure Opening where
  register : Nat
  tail : Bool
deriving DecidableEq, Repr

namespace Opcode

/-- The results that are left open. -/
def opens? (op : Opcode) (a b c : Nat) : Option Opening :=
  match op with
  | .call => if c = 0 then some ⟨a, false⟩ else none
  | .vararg => if b = 0 then some ⟨a, false⟩ else none
  | .tailCall => some ⟨a, true⟩
  | _ => none

/-- Whether all values from some register up are taken. -/
def takesOpen (op : Opcode) (b : Nat) : Bool :=
  match op with
  | .call | .tailCall | .ret | .setList => b == 0
  | _ => false

/-- An operation that goes on at the next instruction, and neither leaves results
open nor takes them. -/
def isPlain : Opcode → Bool
  | .call | .tailCall | .ret | .setList | .vararg | .jmp | .forPrep | .forLoop | .tForLoop | .eq
  | .lt | .le | .test | .testSet | .loadBool | .loadKx => false
  | _ => true

/-- An operation that jumps by an offset. -/
def isJump : Opcode → Bool
  | .jmp | .forPrep | .forLoop | .tForLoop => true
  | _ => false

end Opcode

namespace Instruction

def opens? (i : Instruction) : Option Opening := i.opcode?.bind fun op => op.opens? i.a i.b i.c

def takesOpen (i : Instruction) : Bool := i.opcode?.any (·.takesOpen i.b)

/-- The positions that control may go on at, other than the next. -/
def leaps (i : Instruction) (pc : Nat) : List Int :=
  (i.ways.filter (·.1 ≠ .next)).map fun w => i.target pc w.1

/-- Open results are taken. They begin above the register that says what is done
with them; a return may take them from that register on. -/
structure Takes (i : Instruction) (o : Opening) : Prop where
  takes : i.takesOpen = true
  above : if i.opcode? = some .ret then i.a ≤ o.register else i.a < o.register
  tail : o.tail = true → i.opcode? = some .ret ∧ i.a = o.register

/-- What is open is taken, and nothing else. -/
def Follows (i : Instruction) : Option Opening → Prop
  | none => i.takesOpen = false
  | some o => i.Takes o

variable {i : Instruction} {op : Opcode} {pc : Nat}

theorem opens?_eq (h : i.opcode? = some op) : i.opens? = op.opens? i.a i.b i.c := by
  rw [opens?, h]
  rfl

theorem takesOpen_eq (h : i.opcode? = some op) : i.takesOpen = op.takesOpen i.b := by
  rw [takesOpen, h]
  rfl

theorem leaps_eq (h : i.opcode? = some op) :
    i.leaps pc = ((op.ways i.a i.c).filter (·.1 ≠ .next)).map fun w => i.target pc w.1 := by
  rw [leaps, ways_eq h]

section

variable (h : i.opcode? = some op) (hplain : op.isPlain = true)

include h hplain

theorem opens?_of_plain : i.opens? = none := by
  rw [opens?_eq h]
  cases op <;> first | rfl | cases hplain

theorem takesOpen_of_plain : i.takesOpen = false := by
  rw [takesOpen_eq h]
  cases op <;> first | rfl | cases hplain

theorem leaps_of_plain : i.leaps pc = [] := by
  rw [leaps_eq h]
  cases op <;> first | rfl | cases hplain

end

section

variable (h : i.opcode? = some op) (hjump : op.isJump = true)

include h hjump

theorem opens?_of_jump : i.opens? = none := by
  rw [opens?_eq h]
  cases op <;> first | rfl | cases hjump

theorem takesOpen_of_jump : i.takesOpen = false := by
  rw [takesOpen_eq h]
  cases op <;> first | rfl | cases hjump

theorem leaps_of_jump : i.leaps pc = [i.target pc .jump] := by
  rw [leaps_eq h]
  cases op <;> first | rfl | cases hjump

end

end Instruction

namespace Site

/-- A place where nothing is open: what stands there takes nothing, or what stands
before it leaves nothing open. -/
def Joint (S : Site) (pc : Nat) : Prop :=
  (∃ i, S.Has pc i ∧ i.takesOpen = false) ∨
    ∃ before i, pc = before + 1 ∧ S.Has before i ∧ i.opens? = none

/-- A nested function is one of those of the source. -/
def Made (S : Site) (fs : List FunctionBody) (k : Nat) : Prop :=
  ∃ (f : FunctionBody) (inner : Draft) (outer : List Frame), f.functions ⊆ fs ∧
    S.draft.nested[k]? = some (inner.finish S.options) ∧ f.written ⟨S.options, inner, outer⟩

end Site

/-- Code that can be scanned from one mark to another, with nothing open at its
start and `o` open at its end. -/
inductive Linked (S : Site) (fs : List FunctionBody) (lo : Mark) :
    Mark → Option Opening → Prop
  | nil : Linked S fs lo lo none
  | step {mid : Mark} {o : Option Opening} {i : Instruction} (hprev : Linked S fs lo mid o)
      (hcode : S.Has mid.pc i) (hfollows : i.Follows o)
      (hleaps : ∀ t : Nat, (t : Int) ∈ i.leaps mid.pc → S.Joint t) :
      Linked S fs lo mid.next i.opens?
  | closure {mid : Mark} {a : Nat} (hprev : Linked S fs lo mid none)
      (hcode : S.Has mid.pc (.abx .closure a mid.nested)) (hmade : S.Made fs mid.nested) :
      Linked S fs lo ⟨mid.pc + 1, mid.nested + 1⟩ none

variable {S : Site} {fs : List FunctionBody} {lo mid hi : Mark} {o : Option Opening}
  {i : Instruction} {op : Opcode} {a pc target : Nat}

theorem Site.Joint.after (hcode : S.Has pc i) (h : i.opens? = none) : S.Joint (pc + 1) :=
  Or.inr ⟨pc, i, rfl, hcode, h⟩

theorem Site.Joint.after_plain (hcode : S.Has pc i) (hop : i.opcode? = some op)
    (hplain : op.isPlain = true) : S.Joint (pc + 1) :=
  .after hcode (Instruction.opens?_of_plain hop hplain)

theorem Site.Joint.after_jump (h : S.Jumps op pc a target) (hjump : op.isJump = true) :
    S.Joint (pc + 1) :=
  .after h.2 (Instruction.opens?_of_jump (Instruction.opcode?_asbx ..) hjump)

namespace Linked

/-! ## Pieces of code -/

theorem trans (h : Linked S fs lo mid none) (h' : Linked S fs mid hi o) : Linked S fs lo hi o := by
  induction h' with
  | nil => exact h
  | step _ hcode hfollows hleaps ih => exact .step ih hcode hfollows hleaps
  | closure _ hcode hmade ih => exact .closure ih hcode hmade

theorem le (h : Linked S fs lo hi o) : lo.pc ≤ hi.pc := by
  induction h with
  | nil => exact le_rfl
  | step _ _ _ _ ih | closure _ _ _ ih => exact Nat.le_succ_of_le ih

/-- One instruction that takes nothing. -/
theorem one (hcode : S.Has lo.pc i) (htakes : i.takesOpen = false)
    (hleaps : ∀ t : Nat, (t : Int) ∈ i.leaps lo.pc → S.Joint t) : Linked S fs lo lo.next i.opens? :=
  .step .nil hcode htakes hleaps

theorem plain {asked : Request} (hcode : S.Writes asked lo hi)
    (hop : asked.word.opcode? = some op) (hplain : op.isPlain = true) : Linked S fs lo hi none := by
  obtain ⟨hcode, rfl⟩ := hcode
  rw [← Instruction.opens?_of_plain hop hplain]
  refine one hcode (Instruction.takesOpen_of_plain hop hplain) ?_
  simp [Instruction.leaps_of_plain hop hplain]

/-- An instruction that loads a truth value and goes on behind it. -/
theorem loadBool {b : Nat} (hcode : S.Writes (.abc .loadBool a b 0) lo hi) :
    Linked S fs lo hi none := by
  obtain ⟨hcode, rfl⟩ := hcode
  have hop := Instruction.opcode?_abc .loadBool a b 0
  have hnone : (Instruction.abc .loadBool a b 0).opens? = none := Instruction.opens?_eq hop
  rw [← hnone]
  exact one hcode (Instruction.takesOpen_eq hop) (by simp [Instruction.leaps_eq hop])

/-- An instruction that may skip the next one. -/
theorem skip (hcode : S.Has lo.pc i) (hop : i.opcode? = some op)
    (hopens : op.opens? i.a i.b i.c = none) (htakes : op.takesOpen i.b = false)
    (hways : ∀ w ∈ op.ways i.a i.c, w.1 ≠ .jump) (hjoint : S.Joint (lo.pc + 2)) :
    Linked S fs lo lo.next none := by
  rw [← hopens, ← Instruction.opens?_eq hop]
  refine one hcode (by rw [Instruction.takesOpen_eq hop, htakes]) fun t ht => ?_
  simp only [Instruction.leaps_eq hop, ne_eq, List.mem_map, List.mem_filter,
    decide_eq_true_eq] at ht
  obtain ⟨⟨turn, extra⟩, ⟨hmem, hnext⟩, htarget⟩ := ht
  cases turn with
  | next => exact absurd rfl hnext
  | jump => exact absurd rfl (hways _ hmem)
  | skip =>
    obtain rfl : t = lo.pc + 2 := by
      rw [Instruction.target] at htarget
      omega
    exact hjoint

theorem jump (h : S.Jumps op lo.pc a target) (hjump : op.isJump = true) (hjoint : S.Joint target) :
    Linked S fs lo lo.next none := by
  have hop := Instruction.opcode?_asbx op a ((target : Int) - lo.pc - 1)
  rw [← Instruction.opens?_of_jump hop hjump]
  refine one h.2 (Instruction.takesOpen_of_jump hop hjump) fun t ht => ?_
  rw [Instruction.leaps_of_jump hop hjump, List.mem_singleton, h.target_eq] at ht
  obtain rfl : t = target := by omega
  exact hjoint

/-! ## The ends of a piece -/

section

variable (h : Linked S fs lo hi o)

include h

/-- What is open at a mark has been left so by the instruction before it. -/
theorem state : hi = lo ∧ o = none ∨
    ∃ before i, hi.pc = before + 1 ∧ lo.pc ≤ before ∧ S.Has before i ∧ i.opens? = o := by
  cases h with
  | nil => exact Or.inl ⟨rfl, rfl⟩
  | step hprev hcode _ _ => exact Or.inr ⟨_, _, rfl, hprev.le, hcode, rfl⟩
  | closure hprev hcode _ =>
    exact Or.inr ⟨_, _, rfl, hprev.le, hcode,
      Instruction.opens?_of_plain (Instruction.opcode?_abx ..) rfl⟩

/-- Each instruction takes what the one before it has left open. -/
theorem preceded {j : Instruction} (hge : lo.pc ≤ pc) (hlt : pc < hi.pc) (hj : S.Has pc j) :
    pc = lo.pc ∧ j.Follows none ∨
      ∃ before i, pc = before + 1 ∧ lo.pc ≤ before ∧ S.Has before i ∧ j.Follows i.opens? := by
  have hlast : ∀ {mid : Mark} {o : Option Opening}, Linked S fs lo mid o → pc = mid.pc →
      j.Follows o → pc = lo.pc ∧ j.Follows none ∨
        ∃ before i, pc = before + 1 ∧ lo.pc ≤ before ∧ S.Has before i ∧ j.Follows i.opens? := by
    intro mid o hprev hpc hfollows
    rcases hprev.state with ⟨rfl, rfl⟩ | ⟨before, i, hmid, hle, hi, rfl⟩
    · exact Or.inl ⟨hpc, hfollows⟩
    · exact Or.inr ⟨before, i, hpc.trans hmid, hle, hi, hfollows⟩
  induction h with
  | nil => exact absurd hlt (Nat.not_lt.mpr hge)
  | @step mid o i hprev hcode hfollows _ ih =>
    rcases Nat.lt_succ_iff_lt_or_eq.mp hlt with hlt | rfl
    · exact ih hlt
    · obtain rfl := Option.some.inj (hj.symm.trans hcode)
      exact hlast hprev rfl hfollows
  | @closure mid a hprev hcode _ ih =>
    rcases Nat.lt_succ_iff_lt_or_eq.mp hlt with hlt | rfl
    · exact ih hlt
    · obtain rfl := Option.some.inj (hj.symm.trans hcode)
      exact hlast hprev rfl (Instruction.takesOpen_of_plain (Instruction.opcode?_abx ..) rfl)

/-- Each leap lands on a joint. -/
theorem leaps (hge : lo.pc ≤ pc) (hlt : pc < hi.pc) (hi' : S.Has pc i) {t : Nat}
    (ht : (t : Int) ∈ i.leaps pc) : S.Joint t := by
  induction h with
  | nil => exact absurd hlt (Nat.not_lt.mpr hge)
  | step _ hcode _ hleaps ih =>
    rcases Nat.lt_succ_iff_lt_or_eq.mp hlt with hlt | rfl
    · exact ih hlt
    · obtain rfl := Option.some.inj (hi'.symm.trans hcode)
      exact hleaps t ht
  | closure _ hcode _ ih =>
    rcases Nat.lt_succ_iff_lt_or_eq.mp hlt with hlt | rfl
    · exact ih hlt
    · obtain rfl := Option.some.inj (hi'.symm.trans hcode)
      rw [Instruction.leaps_of_plain (Instruction.opcode?_abx ..) rfl] at ht
      cases ht

/-- Each nested function that is counted is one of the source. -/
theorem made : ∀ k, lo.nested ≤ k → k < hi.nested → S.Made fs k := by
  induction h with
  | nil => exact fun k hge hlt => absurd hlt (Nat.not_lt.mpr hge)
  | step _ _ _ _ ih => exact ih
  | closure _ _ hmade ih =>
    intro k hge hlt
    rcases Nat.lt_succ_iff_lt_or_eq.mp hlt with hlt | rfl
    · exact ih k hge hlt
    · exact hmade

/-- Some instruction stands at each position. -/
theorem has (hge : lo.pc ≤ pc) (hlt : pc < hi.pc) : ∃ i, S.Has pc i := by
  induction h with
  | nil => exact absurd hlt (Nat.not_lt.mpr hge)
  | step _ hcode _ _ ih | closure _ hcode _ ih =>
    rcases Nat.lt_succ_iff_lt_or_eq.mp hlt with hlt | rfl
    · exact ih hlt
    · exact ⟨_, hcode⟩

theorem joint_start (hlt : lo.pc < hi.pc) : S.Joint lo.pc := by
  obtain ⟨j, hj⟩ := h.has le_rfl hlt
  rcases h.preceded le_rfl hlt hj with ⟨-, hfollows⟩ | ⟨before, i, hpc, hle, -, -⟩
  · exact Or.inl ⟨j, hj, hfollows⟩
  · omega

end

end Linked

end LuaLowering
