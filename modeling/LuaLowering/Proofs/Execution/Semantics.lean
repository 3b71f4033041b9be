import LuaLowering.Proofs.Execution.Value

/-!
# The meaning of the first-order fragment

What a chunk without functions, tables and concatenation means: expressions have a
value or none, statements run from one memory to another. The meaning is that of
the source alone. It knows nothing of registers, positions or hidden loop state,
and a block that ends simply drops the locals that were declared in it.

A multiple assignment evaluates all its values and then stores them from left to
right. A numeric `for` takes its counter from the first value on by steps, as long
as it is within the limit; the place one step before the first value has to be an
integer too. Assigning to the loop variable does not move the counter.
-/

namespace LuaLowering

/-- The variables of a chunk: its locals, the latest declaration first, and the
globals. -/
structure Memory where
  locals : List (String × Value)
  globals : Globals

namespace Memory

def read (m : Memory) (x : String) : Value := (m.locals.lookup x).getD (m.globals.read x)

/-- Replaces the value of the latest declaration of a name. -/
def setLatest (x : String) (v : Value) : List (String × Value) → List (String × Value)
  | [] => []
  | (y, u) :: rest => if y = x then (y, v) :: rest else (y, u) :: setLatest x v rest

def write (m : Memory) (x : String) (v : Value) : Memory :=
  if (m.locals.lookup x).isSome then { m with locals := setLatest x v m.locals }
  else { m with globals := m.globals.write x v }

/-- Declares names with values; a name without a value is nil. -/
def declare (m : Memory) : List String → List Value → Memory
  | [], _ => m
  | x :: rest, vs => declare { m with locals := (x, vs.headD .nil) :: m.locals } rest vs.tail

theorem globals_declare (m : Memory) (names : List String) (vs : List Value) :
    (m.declare names vs).globals = m.globals := by
  induction names generalizing m vs with
  | nil => rfl
  | cons x rest ih => rw [declare, ih]

/-- Stores values from left to right; a name without a value gets nil. -/
def writeAll (m : Memory) : List String → List Value → Memory
  | [], _ => m
  | x :: rest, vs => writeAll (m.write x (vs.headD .nil)) rest vs.tail

/-- Drops the locals declared since an earlier memory. -/
def leave (m before : Memory) : Memory :=
  { m with locals := m.locals.drop (m.locals.length - before.locals.length) }

end Memory

/-! ## Expressions -/

/-- The value of an expression, if it has one. -/
def Expr.eval (A : Arithmetic) (m : Memory) : Expr → Option Value
  | .nil => some .nil
  | .boolean b => some (.boolean b)
  | .integer n => some (.integer n)
  | .string s => some (.string s)
  | .name x => some (m.read x)
  | .paren inner => inner.eval A m
  | .binary .and left right => do
    let v ← left.eval A m
    if v.truthy then right.eval A m else some v
  | .binary .or left right => do
    let v ← left.eval A m
    if v.truthy then some v else right.eval A m
  | .binary op left right => do op.result? A (← left.eval A m) (← right.eval A m)
  | _ => none

/-- The values of expressions, one of each. -/
def Expr.evalAll (A : Arithmetic) (m : Memory) (es : List Expr) : Option (List Value) :=
  es.mapM (Expr.eval A m)

/-! ## Statements -/

/-- How a statement ends. -/
inductive Outcome where
  | normal
  | broke
  | returned (values : List Value)

/-- How a loop ends whose body does not end normally. -/
def Outcome.afterLoop : Outcome → Outcome
  | broke => normal
  | o => o

/-- What can be run: a statement, statements in sequence, the inside of a block,
the arms of an `if`, and the rounds of a numeric `for` from a counter on. -/
inductive Phrase where
  | stat (s : Stat)
  | stats (ss : List Stat)
  | body (b : Block)
  | arms (arms : List Branch)
  | rounds (var : String) (counter limit step : Int64) (b : Block)

/-- A phrase runs from one memory to another. -/
inductive Runs (A : Arithmetic) : Phrase → Memory → Outcome → Memory → Prop
  | empty {m : Memory} : Runs A (.stat .empty) m .normal m
  | break {line : Nat} {m : Memory} : Runs A (.stat (.break line)) m .broke m
  | block {b : Block} {m m' : Memory} {o : Outcome} (hbody : Runs A (.body b) m o m') :
      Runs A (.stat (.block b)) m o (m'.leave m)
  | declare {names : List String} {es : List Expr} {line : Nat} {m : Memory} {vs : List Value}
      (hvalues : Expr.evalAll A m es = some vs) :
      Runs A (.stat (.declare names es line)) m .normal (m.declare names vs)
  | assign {names : List String} {es : List Expr} {line : Nat} {m : Memory} {vs : List Value}
      (hvalues : Expr.evalAll A m es = some vs) :
      Runs A (.stat (.assign (names.map .name) es line)) m .normal (m.writeAll names vs)
  | whileDone {cond : Expr} {b : Block} {line : Nat} {m : Memory} {v : Value}
      (hcond : cond.eval A m = some v) (hfalse : v.truthy = false) :
      Runs A (.stat (.whileLoop cond b line)) m .normal m
  | whileAgain {cond : Expr} {b : Block} {line : Nat} {m m₁ m₂ : Memory} {v : Value} {o : Outcome}
      (hcond : cond.eval A m = some v) (htrue : v.truthy = true)
      (hbody : Runs A (.body b) m .normal m₁)
      (hmore : Runs A (.stat (.whileLoop cond b line)) (m₁.leave m) o m₂) :
      Runs A (.stat (.whileLoop cond b line)) m o m₂
  | whileLeft {cond : Expr} {b : Block} {line : Nat} {m m' : Memory} {v : Value} {o : Outcome}
      (hcond : cond.eval A m = some v) (htrue : v.truthy = true)
      (hbody : Runs A (.body b) m o m') (hout : o ≠ .normal) :
      Runs A (.stat (.whileLoop cond b line)) m o.afterLoop (m'.leave m)
  | repeatDone {cond : Expr} {b : Block} {line : Nat} {m m' : Memory} {v : Value}
      (hbody : Runs A (.body b) m .normal m') (hcond : cond.eval A m' = some v)
      (htrue : v.truthy = true) :
      Runs A (.stat (.repeatLoop b cond line)) m .normal (m'.leave m)
  | repeatAgain {cond : Expr} {b : Block} {line : Nat} {m m₁ m₂ : Memory} {v : Value} {o : Outcome}
      (hbody : Runs A (.body b) m .normal m₁) (hcond : cond.eval A m₁ = some v)
      (hfalse : v.truthy = false)
      (hmore : Runs A (.stat (.repeatLoop b cond line)) (m₁.leave m) o m₂) :
      Runs A (.stat (.repeatLoop b cond line)) m o m₂
  | repeatLeft {cond : Expr} {b : Block} {line : Nat} {m m' : Memory} {o : Outcome}
      (hbody : Runs A (.body b) m o m') (hout : o ≠ .normal) :
      Runs A (.stat (.repeatLoop b cond line)) m o.afterLoop (m'.leave m)
  | ifChain {arms : List Branch} {m m' : Memory} {o : Outcome}
      (harms : Runs A (.arms arms) m o m') : Runs A (.stat (.ifChain arms)) m o m'
  | numericFor {var : String} {init limit : Expr} {step : Option Expr} {b : Block}
      {forLine doLine : Nat} {m m' : Memory} {n l k before : Int64} {o : Outcome}
      (hinit : init.eval A m = some (.integer n)) (hlimit : limit.eval A m = some (.integer l))
      (hstep : (step.getD (.integer 1)).eval A m = some (.integer k))
      (hbefore : A.sub n k = some before) (hrounds : Runs A (.rounds var n l k b) m o m') :
      Runs A (.stat (.numericFor var init limit step b forLine doLine)) m o m'
  | nil {m : Memory} : Runs A (.stats []) m .normal m
  | cons {s : Stat} {ss : List Stat} {m m₁ m₂ : Memory} {o : Outcome}
      (hfirst : Runs A (.stat s) m .normal m₁) (hrest : Runs A (.stats ss) m₁ o m₂) :
      Runs A (.stats (s :: ss)) m o m₂
  | stop {s : Stat} {ss : List Stat} {m m' : Memory} {o : Outcome}
      (hfirst : Runs A (.stat s) m o m') (hout : o ≠ .normal) : Runs A (.stats (s :: ss)) m o m'
  | body {ss : List Stat} {line : Nat} {m m' : Memory} {o : Outcome}
      (hstats : Runs A (.stats ss) m o m') : Runs A (.body ⟨ss, none, line⟩) m o m'
  | bodyLeft {ss : List Stat} {es : List Expr} {line : Nat} {m m' : Memory} {o : Outcome}
      (hstats : Runs A (.stats ss) m o m') (hout : o ≠ .normal) :
      Runs A (.body ⟨ss, some es, line⟩) m o m'
  | bodyReturn {ss : List Stat} {es : List Expr} {line : Nat} {m m' : Memory} {vs : List Value}
      (hstats : Runs A (.stats ss) m .normal m') (hvalues : Expr.evalAll A m' es = some vs) :
      Runs A (.body ⟨ss, some es, line⟩) m (.returned vs) m'
  | armsDone {m : Memory} : Runs A (.arms []) m .normal m
  | armTaken {cond : Expr} {b : Block} {line : Nat} {rest : List Branch} {m m' : Memory} {v : Value}
      {o : Outcome} (hcond : cond.eval A m = some v) (htrue : v.truthy = true)
      (hbody : Runs A (.body b) m o m') : Runs A (.arms (⟨cond, b, line⟩ :: rest)) m o (m'.leave m)
  | armSkipped {cond : Expr} {b : Block} {line : Nat} {rest : List Branch} {m m' : Memory}
      {v : Value} {o : Outcome} (hcond : cond.eval A m = some v) (hfalse : v.truthy = false)
      (hmore : Runs A (.arms rest) m o m') : Runs A (.arms (⟨cond, b, line⟩ :: rest)) m o m'
  | roundsDone {var : String} {n l k : Int64} {b : Block} {m : Memory}
      (hpast : withinLimit n l k = false) : Runs A (.rounds var n l k b) m .normal m
  | roundsAgain {var : String} {n next l k : Int64} {b : Block} {m m₁ m₂ : Memory} {o : Outcome}
      (hin : withinLimit n l k = true)
      (hbody : Runs A (.body b) (m.declare [var] [.integer n]) .normal m₁)
      (hnext : A.add n k = some next) (hmore : Runs A (.rounds var next l k b) (m₁.leave m) o m₂) :
      Runs A (.rounds var n l k b) m o m₂
  | roundsLeft {var : String} {n l k : Int64} {b : Block} {m m' : Memory} {o : Outcome}
      (hin : withinLimit n l k = true)
      (hbody : Runs A (.body b) (m.declare [var] [.integer n]) o m') (hout : o ≠ .normal) :
      Runs A (.rounds var n l k b) m o.afterLoop (m'.leave m)

/-- A chunk returns values, and the globals are then as given. A chunk that ends
without a return returns none. -/
def Block.Returns (A : Arithmetic) (b : Block) (g : Globals) (values : List Value) (g' : Globals) :
    Prop :=
  ∃ o m, Runs A (.body b) ⟨[], g⟩ o m ∧ m.globals = g' ∧
    (o = .returned values ∨ (o = .normal ∧ values = []))

/-! ## The fragment -/

/-- A name that neither stands for the table of globals nor looks like hidden loop
state. -/
def PlainName (x : String) : Prop := x ≠ "_ENV" ∧ x.toList.head? ≠ some '('

def BinaryOp.isFirstOrder : BinaryOp → Bool
  | .add | .sub | .eq | .ne | .lt | .le | .gt | .ge | .and | .or => true
  | _ => false

def Expr.FirstOrder : Expr → Prop
  | .nil | .boolean _ | .integer _ | .string _ => True
  | .name x => PlainName x
  | .paren inner => inner.FirstOrder
  | .binary op left right => op.isFirstOrder = true ∧ left.FirstOrder ∧ right.FirstOrder
  | _ => False

def Target.FirstOrder : Target → Prop
  | .name x => PlainName x
  | .index _ _ => False

mutual

/-- A block of the first-order fragment. -/
def Block.FirstOrder : Block → Prop
  | ⟨stats, result, _⟩ => Stat.AllFirstOrder stats ∧ ∀ es, result = some es → ∀ e ∈ es, e.FirstOrder

def Stat.AllFirstOrder : List Stat → Prop
  | [] => True
  | s :: rest => s.FirstOrder ∧ Stat.AllFirstOrder rest

def Stat.FirstOrder : Stat → Prop
  | .empty | .break _ => True
  | .block b => b.FirstOrder
  | .whileLoop cond b _ => cond.FirstOrder ∧ b.FirstOrder
  | .repeatLoop b cond _ => b.FirstOrder ∧ cond.FirstOrder
  | .ifChain arms => Branch.AllFirstOrder arms
  | .numericFor var init limit step b _ _ =>
    PlainName var ∧ init.FirstOrder ∧ limit.FirstOrder ∧ (∀ e, step = some e → e.FirstOrder) ∧
      b.FirstOrder
  | .assign targets es _ => (∀ t ∈ targets, t.FirstOrder) ∧ ∀ e ∈ es, e.FirstOrder
  | .declare names es _ => (∀ x ∈ names, PlainName x) ∧ ∀ e ∈ es, e.FirstOrder
  | .label _ _ | .goto _ _ | .call _ | .genericFor _ _ _ _ | .declareFunction _ _ => False

def Branch.AllFirstOrder : List Branch → Prop
  | [] => True
  | ⟨cond, b, _⟩ :: rest => cond.FirstOrder ∧ b.FirstOrder ∧ Branch.AllFirstOrder rest

end

end LuaLowering
