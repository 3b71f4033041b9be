import LuaLowering.Lower.Control
import LuaLowering.Proofs.Shape.Expression

/-!
# The code of statements

A statement moves from one point of a function to another: code is written, and
locals are declared. Its shape also depends on how a `break` leaves it, which is
known when the loop around it is finished: where the loop ends, and what has to
be closed on the way there.

No shape mentions registers in use. Between two statements those are the
registers of the open locals, and no others.
-/

namespace LuaLowering

/-- A point between two statements of a function. -/
structure Point extends Mark where
  /-- The open locals, the latest first. -/
  opened : List Nat
  /-- How many locals have been declared. -/
  declared : Nat

/-- The same locals, further on in the code. -/
def Point.at (P : Point) (m : Mark) : Point := { P with toMark := m }

/-- How a `break` leaves its loop. -/
structure Exit where
  target : Nat
  /-- The close level of the scopes that it leaves. -/
  close : Nat

/-- The exit as seen from inside one more scope. -/
def Exit.inside (level : Nat) (e : Exit) : Exit := { e with close := joinClose level e.close }

/-- The code of a statement, from one point to another. -/
abbrev StatShape := (S : Site) → (exit : Option Exit) → (P P' : Point) → Prop

/-! ## Scopes -/

/-- Locals are declared one after another, in the registers after those of the
open ones. -/
def Declares (S : Site) (startPc : Nat) : List String → Point → Point → Prop
  | [], P, P' => P' = P
  | x :: rest, P, P' =>
    (∃ v, S.draft.locals[P.declared]? = some v ∧ v.name = x ∧ v.slot = P.opened.length ∧
      v.startPc = startPc) ∧
    S.Room (P.opened.length + 1) ∧
    Declares S startPc rest ⟨P.toMark, P.declared :: P.opened, P.declared + 1⟩ P'

/-- What a scope's captured locals need is closed. -/
def ClosesTo (S : Site) (level : Nat) (lo hi : Mark) : Prop :=
  if level = 0 then hi = lo else S.Writes (.asbx .jmp level 0) lo hi

theorem ClosesTo.jumps {S : Site} {level : Nat} {lo hi : Mark} (h : ClosesTo S level lo hi) :
    hi = lo ∨ S.Jumps .jmp lo.pc level hi.pc ∧ hi = lo.next := by
  rw [ClosesTo] at h
  split at h
  · exact Or.inl h
  · obtain rfl := h.next
    refine Or.inr ⟨h.jumps ?_ (by decide), rfl⟩
    rw [Mark.pc_next]
    omega

/-- A body in a scope of its own. -/
def ScopedIs (body : StatShape) : StatShape := fun S exit P P' =>
  ∃ Q new, body S (exit.map (·.inside (S.level new))) P Q ∧ Q.opened = new ++ P.opened ∧
    ClosesTo S (S.level new) Q.toMark P'.toMark ∧ S.EndAt P'.pc new ∧
    P'.opened = P.opened ∧ P'.declared = Q.declared

/-- Statements one after another. -/
def SeqIs (first second : StatShape) : StatShape := fun S exit P P' =>
  ∃ Q, first S exit P Q ∧ second S exit Q P'

/-! ## Branches and loops -/

/-- A condition is tested, and a jump to `target` is taken when it is false. -/
def TestIs (cond : Part) (S : Site) (opened : List Nat) (target : Nat) (lo hi : Mark) : Prop :=
  ∃ r used mid, OperandIs S opened cond .register opened.length lo r used mid ∧
    S.Writes (.abc .test r.field 0 0) mid mid.next ∧ S.Jumps .jmp mid.next.pc 0 target ∧
    hi = mid.next.next

/-- `break`. -/
def BreakIs : StatShape := fun S exit P P' =>
  ∃ e, exit = some e ∧ S.Jumps .jmp P.pc e.close e.target ∧ P' = P.at P.next

/-- `while`. -/
def WhileIs (cond : Part) (body : StatShape) : StatShape := fun S _ P P' =>
  ∃ top Q new back, TestIs cond S P.opened P'.pc P.toMark top ∧
    body S (some ⟨P'.pc, S.level new⟩) (P.at top) Q ∧ Q.opened = new ++ P.opened ∧
    ClosesTo S (S.level new) Q.toMark back ∧ S.Jumps .jmp back.pc 0 P.pc ∧
    P' = ⟨back.next, P.opened, Q.declared⟩ ∧ S.EndAt P'.pc new

/-- `repeat`. -/
def RepeatIs (body : StatShape) (cond : Part) : StatShape := fun S _ P P' =>
  ∃ Q new r used mid, body S (some ⟨P'.pc, S.level new⟩) P Q ∧ Q.opened = new ++ P.opened ∧
    OperandIs S Q.opened cond .register Q.opened.length Q.toMark r used mid ∧
    S.Writes (.abc .test r.field 0 0) mid mid.next ∧
    S.Jumps .jmp mid.next.pc (S.level new) P.pc ∧
    ClosesTo S (S.level new) mid.next.next P'.toMark ∧ S.EndAt P'.pc new ∧
    P'.opened = P.opened ∧ P'.declared = Q.declared

/-- An arm of an `if`. -/
structure ArmPart where
  cond : Part
  body : StatShape

/-- The arms of an `if` whose jumps out lead to `past`. -/
def ArmsAre (S : Site) (exit : Option Exit) (past : Nat) : List ArmPart → Point → Point → Prop
  | [], P, P' => P' = P
  | [arm], P, P' => ∃ top, TestIs arm.cond S P.opened past P.toMark top ∧
      ScopedIs arm.body S exit (P.at top) P'
  | arm :: rest, P, P' => ∃ top Q, TestIs arm.cond S P.opened (Q.pc + 1) P.toMark top ∧
      ScopedIs arm.body S exit (P.at top) Q ∧ S.Jumps .jmp Q.pc 0 past ∧
      ArmsAre S exit past rest (Q.at Q.next) P'

/-- `if`. -/
def IfIs (arms : List ArmPart) : StatShape := fun S exit P P' => ArmsAre S exit P'.pc arms P P'

/-- Locals are declared with the values of a list. -/
def DeclareIs (names : List String) (values : List Part) : StatShape := fun S _ P P' =>
  ∃ mid, AdjustedIs S P.opened names.length values P.opened.length P.toMark mid ∧
    Declares S mid.pc names (P.at mid) P'

/-- A numeric `for`. Its hidden locals are the first three it declares, and they
live one instruction longer than the others. -/
def NumericForIs (var : String) (init limit step : Part) (body : StatShape) : StatShape :=
  fun S _ P P' => ∃ P₁ P₂ Q new loop, DeclareIs numericState [init, limit, step] S none P P₁ ∧
    Declares S (P₁.pc + 1) [var] P₁ P₂ ∧ S.Jumps .forPrep P₁.pc P.opened.length loop.pc ∧
    body S (some ⟨P'.pc, S.level new⟩) (P₂.at P₂.next) Q ∧
    Q.opened = new ++ P.opened ∧ ClosesTo S (S.level new) Q.toMark loop ∧
    S.Jumps .forLoop loop.pc P.opened.length (P₁.pc + 1) ∧
    P' = ⟨loop.next, P.opened, Q.declared⟩ ∧
    S.EndAt (loop.pc + 1) (new.filter (· < P.declared + 3)) ∧
    S.EndAt loop.pc (new.filter (P.declared + 3 ≤ ·))

/-- A generic `for`. Its hidden locals are the first three it declares, and they
live two instructions longer than the others. -/
def GenericForIs (names : List String) (values : List Part) (body : StatShape) : StatShape :=
  fun S _ P P' => ∃ P₁ P₂ Q new call, DeclareIs genericState values S none P P₁ ∧
    Declares S (P₁.pc + 1) names P₁ P₂ ∧ S.Jumps .jmp P₁.pc 0 call.pc ∧
    body S (some ⟨P'.pc, S.level new⟩) (P₂.at P₂.next) Q ∧
    Q.opened = new ++ P.opened ∧ ClosesTo S (S.level new) Q.toMark call ∧
    S.Writes (.abc .tForCall P.opened.length 0 names.length) call call.next ∧
    S.Jumps .tForLoop call.next.pc (P.opened.length + 2) (P₁.pc + 1) ∧
    P' = ⟨call.next.next, P.opened, Q.declared⟩ ∧
    S.EndAt (call.pc + 2) (new.filter (· < P.declared + 3)) ∧
    S.EndAt call.pc (new.filter (P.declared + 3 ≤ ·))

/-! ## Assignments -/

/-- The left-hand side of an assignment and its parts. -/
inductive TargetPart where
  | name (x : String)
  | index (table key : Part)

/-- Where a store will go. -/
inductive AddressIs (S : Site) (opened : List Nat) (used : Nat) (lo : Mark) :
    TargetPart → Address → Nat → Mark → Prop
  | register {x : String} {v : Local} (hlocal : S.local? opened x = some v) :
      AddressIs S opened used lo (.name x) (.register v.slot) used lo
  | upvalue {x : String} {u : Nat} (hlocal : S.local? opened x = none) (hup : S.Upvalue u x) :
      AddressIs S opened used lo (.name x) (.upvalue u) used lo
  | global {x : String} {env : Operand} {i : Nat} (hlocal : S.local? opened x = none)
      (hout : S.Unknown x) (henv : GlobalsAre S opened env) (hpool : S.Pool i (.string x))
      (hreach : i ≤ S.options.constantLimit) :
      AddressIs S opened used lo (.name x) (.global env x none) used lo
  | globalLoaded {x : String} {env : Operand} {hi : Mark} (hlocal : S.local? opened x = none)
      (hout : S.Unknown x) (henv : GlobalsAre S opened env)
      (hroom : S.Room (used + 1)) (hkey : ConstantIs S (.string x) used lo hi) :
      AddressIs S opened used lo (.name x) (.global env x (some used)) (used + 1) hi
  | field {table key : Part} {mid hi : Mark} (hroom : S.Room (used + 2))
      (htable : table.shape S opened used 1 (used + 1) lo mid)
      (hkey : key.shape S opened (used + 1) 1 (used + 2) mid hi) :
      AddressIs S opened used lo (.index table key) (.field used (used + 1)) (used + 2) hi

/-- Where the stores will go, from left to right. -/
inductive AddressesAre (S : Site) (opened : List Nat) :
    List TargetPart → List Address → Nat → Mark → Nat → Mark → Prop
  | nil {used : Nat} {lo : Mark} : AddressesAre S opened [] [] used lo used lo
  | cons {t : TargetPart} {rest : List TargetPart} {address : Address} {more : List Address}
      {used used₁ used' : Nat} {lo mid hi : Mark} 
      (hfirst : AddressIs S opened used lo t address used₁ mid)
      (hmore : AddressesAre S opened rest more used₁ mid used' hi) :
      AddressesAre S opened (t :: rest) (address :: more) used lo used' hi

/-- The instruction that stores a global. -/
def globalWrite (env : Operand) (key value : Nat) : Request :=
  match env with
  | .upvalue u => .abc .setTabUp u key value
  | other => .abc .setTable other.field key value

/-- The value in a register is stored. -/
def StoreIs (S : Site) (value : Nat) (lo hi : Mark) : Address → Prop
  | .register r => S.Writes (.abc .move r value 0) lo hi
  | .upvalue u => S.Writes (.abc .setUpval value u 0) lo hi
  | .field table key => S.Writes (.abc .setTable table key value) lo hi
  | .global env _ (some r) => S.Writes (globalWrite env r value) lo hi
  | .global env x none => ∃ i, S.Pool i (.string x) ∧ i ≤ S.options.constantLimit ∧
      S.Writes (globalWrite env (Operand.constant i).field value) lo hi

/-- The values in a row of registers are stored. -/
def StoresAre (S : Site) : List Address → (value : Nat) → (lo hi : Mark) → Prop
  | [], _, lo, hi => hi = lo
  | address :: rest, value, lo, hi =>
    StoreIs S value lo lo.next address ∧ StoresAre S rest (value + 1) lo.next hi

/-- An assignment. -/
def AssignIs (targets : List TargetPart) (values : List Part) : StatShape := fun S _ P P' =>
  ∃ addresses used mid₁ mid₂ hi,
    AddressesAre S P.opened targets addresses P.opened.length P.toMark used mid₁ ∧
    AdjustedIs S P.opened targets.length values used mid₁ mid₂ ∧
    StoresAre S addresses used mid₂ hi ∧ P' = P.at hi

/-! ## Calls, functions and returns -/

/-- A call whose results are dropped. -/
def CallStatIs (callee : Part) (method : Option String) (args : List Part) : StatShape :=
  fun S _ P P' => ∃ hi, S.Room (P.opened.length + 1) ∧
    CallIs S P.opened callee method args P.opened.length 0 (P.opened.length + 1) P.toMark hi ∧
    P' = P.at hi

/-- A local function, which sees itself. -/
def DeclareFunctionIs (x : String) (written : Site → Prop) : StatShape := fun S _ P P' =>
  ∃ P₁ hi, Declares S (P.pc + 1) [x] P P₁ ∧
    FunctionIs S P₁.opened written P.opened.length P.toMark hi ∧ P' = P₁.at hi

/-- A return of the results of a call. -/
def ReturnCallIs (callee : Part) (method : Option String) (args : List Part) : StatShape :=
  fun S _ P P' => ∃ n mid, S.Room (P.opened.length + 1) ∧
    LaidOutIs S P.opened callee method args P.opened.length n (P.opened.length + 1) P.toMark mid ∧
    S.Writes (.abc .tailCall P.opened.length (countCode n) 0) mid mid.next ∧
    S.Writes (.abc .ret P.opened.length (countCode allValues) 0) mid.next mid.next.next ∧
    P' = P.at mid.next.next

/-- A return. A single local is returned from its own register. -/
inductive ReturnIs (values : List Part) (S : Site) (exit : Option Exit) (P P' : Point) : Prop
  | nothing (hnone : values = []) (hcode : S.Writes (.abc .ret 0 (countCode 0) 0) P.toMark P.next)
      (hpoint : P' = P.at P.next)
  | register {x : String} {p : Part} {v : Local} (hone : values = [p]) (hname : p.exp = .name x)
      (hlocal : S.local? P.opened x = some v)
      (hcode : S.Writes (.abc .ret v.slot (countCode 1) 0) P.toMark P.next)
      (hpoint : P' = P.at P.next)
  | loaded {n : Int} {mid : Mark} (hload : AllIs S P.opened values n P.opened.length P.toMark mid)
      (hcode : S.Writes (.abc .ret P.opened.length (countCode n) 0) mid mid.next)
      (hpoint : P' = P.at mid.next)

/-- A function is as a step left it that wrote it inside those around it, which were
then on their way to what they are. -/
def Site.LeftBy (S : Site) (write : LowerM Unit) : Prop :=
  ∃ w w' : Workspace, w.options = S.options ∧
    List.Forall₂ (fun d F => Draft.Becomes d F.draft ∧ F.opened = d.opened)
      (w.draft :: w.enclosing) S.outer ∧
    write w.enter = .ok () w' ∧ w'.draft = S.draft

/-- What the prototype of a function records in bytes is what it was before. -/
structure Draft.Recorded (d : Draft) (o : Options) : Prop where
  params : (d.finish o).numParams.toNat = d.paramCount
  stack : (d.finish o).maxStackSize.toNat = max d.registers.peak 2
  captures : (d.finish o).upvalues.map (·.index.toNat) = d.upvalues.toList.map (·.index)

/-- A finished function keeps to the limits on its registers and upvalues. -/
structure Site.Fits (S : Site) : Prop where
  limit : S.draft.registers.limit = S.options.registerLimit
  upvalues : S.draft.upvalues.size ≤ maxUpvalues
  recorded : S.draft.Recorded S.options

/-- The registers of a function fit into a field. -/
def Site.Framed (S : Site) : Prop := S.peak ≤ frameRegisters

/-- A whole function: its parameters, its body and the bare return at its end. -/
def WrittenIs (params : List String) (body : StatShape) (S : Site) : Prop :=
  ∃ P Q, Declares S 0 params ⟨⟨0, 0⟩, [], 0⟩ P ∧ body S none P Q ∧
    S.Has Q.pc (.abc .ret 0 (countCode 0) 0) ∧ S.draft.code.size = Q.pc + 1 ∧
    S.EndAt (Q.pc + 1) Q.opened ∧ S.draft.locals.size = Q.declared ∧
    S.draft.nested.size = Q.nested ∧ S.draft.paramCount = params.length ∧ S.Fits

end LuaLowering
