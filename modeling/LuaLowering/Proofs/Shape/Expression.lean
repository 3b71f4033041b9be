import LuaLowering.Lower.Expression
import LuaLowering.Proofs.Shape.Site
import LuaLowering.Proofs.SizeHints

/-!
# The code of expressions

For each kind of expression, what stands in the finished function where it was
lowered. A shape is told which locals are open, the register and the number of
values wanted, how many registers are in use, and the positions between which
the code lies. Whatever an expression is made of comes as a `Part`, the shape of
a subexpression beside its syntax; the recursion over the syntax is elsewhere,
as it is for lowering itself.
-/

namespace LuaLowering

/-- The code of an expression: at a site with some locals open, `want` values
are loaded into the registers from `a` on, with `used` registers in use, between
`lo` and `hi`. -/
abbrev ExprShape :=
  (S : Site) → (opened : List Nat) → (a : Nat) → (want : Int) → (used : Nat) → (lo hi : Mark) → Prop

/-- An expression and its code. -/
structure Part where
  exp : Expr
  shape : ExprShape

/-! ## Operands -/

/-- A constant is loaded. -/
def ConstantIs (S : Site) (k : Constant) (a : Nat) (lo hi : Mark) : Prop :=
  ∃ i, S.Pool i k ∧
    ((i ≤ Instruction.maxBx ∧ S.Writes (.abx .loadK a i) lo hi) ∨
      (Instruction.maxBx < i ∧ S.Writes (.abx .loadKx a 0) lo lo.next ∧
        S.Writes (.ax .extraArg i) lo.next hi))

/-- A constant as a part. -/
def Part.constant (e : Expr) (k : Constant) : Part :=
  ⟨e, fun S _ a _ _ lo hi => ConstantIs S k a lo hi⟩

/-- A string as a part. -/
def Part.string (s : String) : Part := .constant (.string s) (.string s)

/-- Where an operand is found. It is taken from where it is, or else from the
first free register, into which it is loaded. -/
inductive OperandIs (S : Site) (opened : List Nat) (p : Part) (kinds : OperandKinds)
    (used : Nat) (lo : Mark) : Operand → Nat → Mark → Prop
  | constant {k : Constant} {i : Nat} (hkind : kinds.constants = true)
      (hlit : p.exp.literal? = some k) (hpool : S.Pool i k)
      (hreach : i ≤ S.options.constantLimit) :
      OperandIs S opened p kinds used lo (.constant i) used lo
  | register {x : String} {v : Local} (hkind : kinds.registers = true) (hname : p.exp = .name x)
      (hlocal : S.local? opened x = some v) :
      OperandIs S opened p kinds used lo (.register v.slot) used lo
  | upvalue {x : String} {u : Nat} (hkind : kinds.upvalues = true) (hname : p.exp = .name x)
      (hlocal : kinds.registers = true → S.local? opened x = none) (hup : S.Upvalue u x) :
      OperandIs S opened p kinds used lo (.upvalue u) used lo
  | fresh {hi : Mark} (hroom : S.Room (used + 1))
      (hload : p.shape S opened used 1 (used + 1) lo hi) :
      OperandIs S opened p kinds used lo (.register used) (used + 1) hi

/-- Where the globals are. -/
inductive GlobalsAre (S : Site) (opened : List Nat) : Operand → Prop
  | register {v : Local} (hlocal : S.local? opened "_ENV" = some v) :
      GlobalsAre S opened (.register v.slot)
  | upvalue {u : Nat} (hlocal : S.local? opened "_ENV" = none) (hup : S.Upvalue u "_ENV") :
      GlobalsAre S opened (.upvalue u)

/-- The instruction that reads a field of a table. -/
def fieldRead (a : Nat) (table key : Operand) : Request :=
  match table with
  | .upvalue u => .abc .getTabUp a u key.field
  | other => .abc .getTable a other.field key.field

/-- What a name stands for is loaded: the innermost local of that name in the
function, the variable it stands for further out, or a global. -/
inductive NameIs (S : Site) (opened : List Nat) (x : String) (a used : Nat) (lo hi : Mark) : Prop
  | register {v : Local} (hlocal : S.local? opened x = some v)
      (hcode : S.Writes (.abc .move a v.slot 0) lo hi)
  | upvalue {u : Nat} (hlocal : S.local? opened x = none) (hup : S.Upvalue u x)
      (hcode : S.Writes (.abc .getUpval a u 0) lo hi)
  | global {env key : Operand} {used' : Nat} {mid : Mark} (hlocal : S.local? opened x = none)
      (hout : S.Unknown x) (henv : GlobalsAre S opened env)
      (hkey : OperandIs S opened (.string x) .registerOrConstant used lo key used' mid)
      (hcode : S.Writes (fieldRead a env key) mid hi)

/-! ## Lists of values -/

/-- Parts are loaded into registers in a row: one value of each, and `lastWant`
of the last. -/
def EachIs (S : Site) (opened : List Nat) (lastWant : Int) :
    List Part → (used : Nat) → (lo hi : Mark) → Prop
  | [], _, lo, hi => hi = lo
  | [p], used, lo, hi => S.Room (used + 1) ∧ p.shape S opened used lastWant (used + 1) lo hi
  | p :: rest, used, lo, hi => ∃ mid, S.Room (used + 1) ∧
      p.shape S opened used 1 (used + 1) lo mid ∧ EachIs S opened lastWant rest (used + 1) mid hi

/-- Whether the last part of a list can give any number of values. -/
def Part.expands (parts : List Part) : Bool :=
  match parts.getLast? with
  | some p => p.exp.isMulti
  | none => false

/-- A list without the literal nils at its end. -/
def Part.withoutTailNils (parts : List Part) : List Part :=
  (parts.reverse.dropWhile (·.exp.isNil)).reverse

/-- All values of a list are loaded; their number is `n`. -/
def AllIs (S : Site) (opened : List Nat) (parts : List Part) (n : Int) (used : Nat)
    (lo hi : Mark) : Prop :=
  if Part.expands parts then EachIs S opened allValues parts used lo hi ∧ n = allValues
  else EachIs S opened 1 parts used lo hi ∧ n = parts.length

/-- A list is loaded so that `n` values stand in a row of registers. -/
def AdjustedIs (S : Site) (opened : List Nat) (n : Nat) (parts : List Part)
    (used : Nat) (lo hi : Mark) : Prop :=
  let parts := Part.withoutTailNils parts
  let given := parts.length
  if n ≤ given then
    EachIs S opened (if n < given ∧ Part.expands parts then 0 else 1) parts used lo hi
  else S.Room (used + n) ∧
    if Part.expands parts then EachIs S opened ((n - given : Nat) + 1) parts used lo hi
    else ∃ mid, EachIs S opened 1 parts used lo mid ∧
      S.Writes (.abc .loadNil (used + given) (n - given - 1) 0) mid hi

/-! ## Operators and fields -/

/-- A field of a table is loaded. -/
def IndexIs (S : Site) (opened : List Nat) (table key : Part) (a used : Nat) (lo hi : Mark) :
    Prop :=
  ∃ t k used₁ used₂ mid₁ mid₂,
    OperandIs S opened table .registerOrUpvalue used lo t used₁ mid₁ ∧
    OperandIs S opened key .registerOrConstant used₁ mid₁ k used₂ mid₂ ∧
    S.Writes (fieldRead a t k) mid₂ hi

/-- A unary operator is applied. -/
def UnaryIs (S : Site) (opened : List Nat) (op : UnaryOp) (p : Part) (a used : Nat) (lo hi : Mark) :
    Prop :=
  ∃ b used' mid, OperandIs S opened p .register used lo b used' mid ∧
    S.Writes (.abc (Emit.unaryOpcode op) a b.field 0) mid hi

/-- `and` or `or`: the right operand is skipped when the left one has the truth
value `keep`. -/
def ShortCircuitIs (S : Site) (opened : List Nat) (keep : Nat) (left right : Part)
    (a used : Nat) (lo hi : Mark) : Prop :=
  ∃ b c used₁ used₂ mid₁ mid₂,
    OperandIs S opened left .register used lo b used₁ mid₁ ∧
    S.Writes (.abc .testSet a b.field keep) mid₁ mid₁.next ∧
    S.Jumps .jmp mid₁.next.pc 0 hi.pc ∧
    OperandIs S opened right .register used mid₁.next.next c used₂ mid₂ ∧
    S.Writes (.abc .move a c.field 0) mid₂ hi

/-- Two operands are combined: by one instruction, or by a test and the two ways
to load its outcome. -/
def CombinedIs (S : Site) (op : BinaryOp) (a b c : Nat) (lo hi : Mark) : Prop :=
  match Emit.arithmetic? op with
  | some code => S.Writes (.abc code a b c) lo hi
  | none =>
    match Emit.comparison? op b c with
    | some (code, outcome, left, right) =>
      S.Writes (.abc code outcome left right) lo lo.next ∧
        S.Writes (.asbx .jmp 0 1) lo.next lo.next.next ∧
        S.Writes (.abc .loadBool a 0 1) lo.next.next lo.next.next.next ∧
        S.Writes (.abc .loadBool a 1 0) lo.next.next.next hi
    | none => hi = lo

/-- An operator that evaluates both operands is applied. -/
def StrictIs (S : Site) (opened : List Nat) (op : BinaryOp) (left right : Part)
    (a used : Nat) (lo hi : Mark) : Prop :=
  ∃ b c used₁ used₂ mid₁ mid₂,
    OperandIs S opened left .registerOrConstant used lo b used₁ mid₁ ∧
    OperandIs S opened right .registerOrConstant used₁ mid₁ c used₂ mid₂ ∧
    CombinedIs S op a b.field c.field mid₂ hi

/-- A binary operator is applied. -/
def BinaryIs (S : Site) (opened : List Nat) (op : BinaryOp) (left right : Part)
    (a used : Nat) (lo hi : Mark) : Prop :=
  match op with
  | .and => ShortCircuitIs S opened 0 left right a used lo hi
  | .or => ShortCircuitIs S opened 1 left right a used lo hi
  | op => StrictIs S opened op left right a used lo hi

/-- Values in a row of registers are concatenated. -/
def ConcatIs (S : Site) (opened : List Nat) (parts : List Part) (a used : Nat) (lo hi : Mark) :
    Prop :=
  ∃ mid, EachIs S opened 1 parts used lo mid ∧
    S.Writes (.abc .concat a used (used + parts.length - 1)) mid hi

/-! ## Table constructors -/

/-- A field of a table constructor and its parts. -/
inductive FieldPart where
  | item (value : Part)
  | entry (key value : Part)

def FieldPart.isItem : FieldPart → Bool
  | .item _ => true
  | .entry _ _ => false

/-- The number of items among some fields. -/
def FieldPart.items (fields : List FieldPart) : Nat := (fields.filter (·.isItem)).length

/-- The items that the `SETLIST` after `done` of them stores. -/
def batchOf (done : Nat) : Nat := if done % batchSize = 0 then batchSize else done % batchSize

theorem batchOf_succ (done : Nat) : batchOf (done + 1) = done % batchSize + 1 := by
  unfold batchOf batchSize
  split <;> omega

/-- The items waiting in registers after `done` of `total`. -/
def waiting (total done : Nat) : Nat := if done = total then 0 else done % batchSize

theorem waiting_zero (total : Nat) : waiting total 0 = 0 := by
  unfold waiting
  split <;> rfl

/-- A full batch is stored, and so is what is there after the last item. -/
theorem waiting_of_full {total done : Nat} (h : (done + 1) % batchSize = 0 ∨ done + 1 = total) :
    waiting total (done + 1) = 0 := by
  unfold waiting
  split <;> omega

theorem waiting_of_part {total done : Nat} (h : ¬((done + 1) % batchSize = 0 ∨ done + 1 = total)) :
    waiting total (done + 1) = done % batchSize + 1 := by
  unfold waiting batchSize at *
  split <;> omega

/-- The fields of a constructor are stored, `done` of its `total` items being
loaded already. -/
def FieldsAre (S : Site) (opened : List Nat) (a total : Nat) :
    List FieldPart → (done used : Nat) → (lo hi : Mark) → Prop
  | [], _, _, lo, hi => hi = lo
  | .item value :: rest, done, used, lo, hi => ∃ mid,
      S.Room (used + 1) ∧
      value.shape S opened used (if rest.isEmpty && value.exp.isMulti then allValues else 1)
        (used + 1) lo mid ∧
      if (done + 1) % batchSize = 0 ∨ done + 1 = total then
        S.Writes (.abc .setList a
          (if rest.isEmpty && value.exp.isMulti then 0 else batchOf (done + 1))
          (done / batchSize + 1)) mid mid.next ∧
        FieldsAre S opened a total rest (done + 1) (used + 1 - batchOf (done + 1)) mid.next hi
      else FieldsAre S opened a total rest (done + 1) (used + 1) mid hi
  | .entry key value :: rest, done, used, lo, hi => ∃ b c used₁ used₂ mid₁ mid₂,
      OperandIs S opened key .registerOrConstant used lo b used₁ mid₁ ∧
      OperandIs S opened value .registerOrConstant used₁ mid₁ c used₂ mid₂ ∧
      S.Writes (.abc .setTable a b.field c.field) mid₂ mid₂.next ∧
      FieldsAre S opened a total rest done used mid₂.next hi

/-- A table is made. -/
def TableIs (S : Site) (opened : List Nat) (fields : List FieldPart) (a used : Nat) (lo hi : Mark) :
    Prop :=
  let items := (fields.filter (·.isItem)).length
  S.Writes (.abc .newTable a (SizeHint.encode items) (SizeHint.encode (fields.length - items)))
      lo lo.next ∧
    FieldsAre S opened a items fields 0 used lo.next hi

/-! ## Calls and functions -/

/-- A method and its receiver are loaded. -/
def MethodIs (S : Site) (opened : List Nat) (method : String) (a used : Nat) (lo hi : Mark) :
    Prop :=
  ∃ key used' mid, S.Room (used + 1) ∧
    OperandIs S opened (.string method) .registerOrConstant (used + 1) lo key used' mid ∧
    S.Writes (.abc .self a a key.field) mid hi

/-- The function, the receiver and the arguments of a call are loaded; `n` is
the number of arguments. -/
def LaidOutIs (S : Site) (opened : List Nat) (callee : Part) (method : Option String)
    (args : List Part) (a : Nat) (n : Int) (used : Nat) (lo hi : Mark) : Prop :=
  ∃ mid₁ mid₂ used' count, callee.shape S opened a 1 used lo mid₁ ∧
    (match method with
      | some m => MethodIs S opened m a used mid₁ mid₂ ∧ used' = used + 1
      | none => mid₂ = mid₁ ∧ used' = used) ∧
    AllIs S opened args count used' mid₂ hi ∧
    n = if count = allValues then allValues else if method.isSome then count + 1 else count

/-- The field for a count of values. -/
def countCode (n : Int) : Nat := ((n + 1) % 0x100000000).toNat

theorem countCode_eq {n : Int} (h : -1 ≤ n) (hlt : n < 0x1ff) : countCode n = (n + 1).toNat := by
  rw [countCode, Int.emod_eq_of_lt (by omega) (by omega)]

/-- A laid out call is made and keeps `want` results. -/
def CallIs (S : Site) (opened : List Nat) (callee : Part) (method : Option String)
    (args : List Part) (a : Nat) (want : Int) (used : Nat) (lo hi : Mark) : Prop :=
  ∃ n mid, LaidOutIs S opened callee method args a n used lo mid ∧
    S.Writes (.abc .call a (countCode n) (countCode want)) mid hi

/-- An upvalue of a function is what its name stands for where the function is
made; a local that it stands for is captured, and any other variable is an
upvalue there as well. -/
def Capture.FromFrame (c : Capture) (F : Frame) : Prop :=
  match F.local? c.name with
  | some v => c.inStack = true ∧ c.index = v.slot ∧ v.captured = true
  | none => c.inStack = false ∧ c.index < F.draft.upvalues.size

/-- A closure is made of the next nested function, whose own code is as `written`
says. -/
def FunctionIs (S : Site) (opened : List Nat) (written : Site → Prop) (a : Nat)
    (lo hi : Mark) : Prop :=
  ∃ inner, S.draft.nested[lo.nested]? = some (inner.finish S.options) ∧
    S.Writes (.abx .closure a lo.nested) lo lo.next ∧ hi = ⟨lo.pc + 1, lo.nested + 1⟩ ∧
    (∀ c ∈ inner.upvalues, c.FromFrame ⟨S.draft, opened⟩) ∧
    written ⟨S.options, inner, ⟨S.draft, opened⟩ :: S.outer⟩

end LuaLowering
