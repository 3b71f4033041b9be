import LuaLowering.Proofs.Execution.Statement

/-!
# Declarations, assignments and returns run

A declaration only has to leave its values in the registers of the new locals. An
assignment finds out first where its values go, then computes them all above that,
and stores them from left to right; a store never touches a value that is still
to be stored.
-/

namespace LuaLowering

open Machine

variable {A : Arithmetic} {S : Site} {hidden regs : Nat → Value} {opened : List Nat}
  {m : Memory} {used : Nat} {lo hi : Mark} {vs : List Value} {x : String} {names : List String}
  {parts : List Part} {address : Address} {used' n : Nat} {addresses : List Address}

theorem DeclareIs.simulates (hS : S.Chunk) (hparts : ∀ p ∈ parts, p.Computes A S ∧ p.exp.FirstOrder)
    (hnames : ∀ x ∈ names, PlainName x) (hvs : Part.evalAll A m parts = some vs) :
    (DeclareIs names parts).Simulates A S m .normal (m.declare names vs) := by
  intro hidden regs exit P P' h hlen hm
  obtain ⟨mid, hload, hdecl⟩ := h
  obtain ⟨regs', hrun, hvals, hkeep, -⟩ := hload.runs hS hparts hm le_rfl hlen hvs
  have hpc : P'.pc = mid.pc := congrArg Mark.pc hdecl.pc_eq
  have hglobals : (m.declare names vs).globals = m.globals := Memory.globals_declare _ _ _
  refine ⟨regs', ?_, hdecl.holds hnames hvals (hm.frame hkeep)⟩
  rw [hpc, hglobals]
  exact hrun

/-! ## Stores -/

/-- An address is that of a name: the register of a local, or a global whose key is
a constant or has been loaded. -/
inductive Address.Of (S : Site) (regs : Nat → Value) (opened : List Nat) (used : Nat) (x : String) :
    Address → Prop
  | register {v : Local} (hlocal : S.local? opened x = some v) :
      Of S regs opened used x (.register v.slot)
  | global {u : Nat} (hlocal : S.local? opened x = none) :
      Of S regs opened used x (.global (.upvalue u) x none)
  | globalLoaded {u r : Nat} (hlocal : S.local? opened x = none) (hlo : opened.length ≤ r)
      (hr : r < used) (hkey : regs r = .string x) :
      Of S regs opened used x (.global (.upvalue u) x (some r))

theorem Address.Of.keep {regs' : Nat → Value} (h : Address.Of S regs opened used x address)
    (hregs : ∀ r, opened.length ≤ r → r < used → regs' r = regs r) (hle : used ≤ used') :
    Address.Of S regs' opened used' x address := by
  cases h with
  | register hlocal => exact .register hlocal
  | global hlocal => exact .global hlocal
  | globalLoaded hlocal hlo hr hkey =>
    exact .globalLoaded hlocal hlo (by omega) ((hregs _ hlo hr).trans hkey)

theorem AddressIs.runs (hS : S.Chunk) (hx : PlainName x)
    (h : AddressIs S opened used lo (.name x) address used' hi)
    (hm : Holds S hidden regs opened m.locals) (hlen : opened.length ≤ used) (hused : used ≤ 255) :
    ∃ regs', S.Reaches A ⟨lo.pc, regs, m.globals⟩ ⟨hi.pc, regs', m.globals⟩ ∧
      Address.Of S regs' opened used' x address ∧ (∀ r < used, regs' r = regs r) ∧
      used ≤ used' ∧ used' ≤ 255 := by
  cases h with
  | register hlocal =>
    exact ⟨regs, .refl, .register hlocal, fun _ _ => rfl, le_rfl, hused⟩
  | upvalue _ hup => exact absurd (hS.upvalue hup) hx.1
  | global hlocal _ henv =>
    obtain ⟨u, rfl⟩ := henv.upvalue_of hm
    exact ⟨regs, .refl, .global hlocal, fun _ _ => rfl, le_rfl, hused⟩
  | globalLoaded hlocal _ henv hroom hkey =>
    obtain ⟨u, rfl⟩ := henv.upvalue_of hm
    have hmax := hS.room hroom
    refine ⟨_, hkey.runs hS (by omega) rfl _, ?_, fun r hr => ?_, by omega, hmax⟩
    · exact .globalLoaded hlocal hlen (by omega) (Function.update_self _ _ _)
    · exact Function.update_of_ne (by omega) _ _

theorem AddressesAre.runs (hS : S.Chunk) (hnames : ∀ x ∈ names, PlainName x)
    (h : AddressesAre S opened (names.map .name) addresses used lo used' hi)
    (hm : Holds S hidden regs opened m.locals) (hlen : opened.length ≤ used) (hused : used ≤ 255) :
    ∃ regs', S.Reaches A ⟨lo.pc, regs, m.globals⟩ ⟨hi.pc, regs', m.globals⟩ ∧
      List.Forall₂ (Address.Of S regs' opened used') names addresses ∧
      (∀ r < used, regs' r = regs r) ∧ used ≤ used' ∧ used' ≤ 255 := by
  induction names generalizing used lo regs addresses with
  | nil =>
    cases h
    exact ⟨regs, .refl, .nil, fun _ _ => rfl, le_rfl, hused⟩
  | cons x rest ih =>
    rw [List.forall_mem_cons] at hnames
    cases h with
    | cons hfirst hmore =>
      obtain ⟨regs₁, hrun₁, hof, hkeep₁, hle₁, hmax₁⟩ :=
        hfirst.runs (A := A) hS hnames.1 hm hlen hused
      have hm₁ := hm.frame fun r hr => hkeep₁ r (by omega)
      obtain ⟨regs', hrun, hall, hkeep, hle, hmax⟩ :=
        ih hnames.2 hmore hm₁ (by omega) hmax₁
      refine ⟨regs', hrun₁.trans hrun, .cons (hof.keep (fun r _ hr => hkeep r hr) hle) hall,
        fun r hr => ?_, by omega, hmax⟩
      rw [hkeep r (by omega), hkeep₁ r hr]

/-- A store assigns to the name of its address, and changes no register above those
of the locals. -/
theorem StoreIs.runs {r : Nat} (hS : S.Chunk) (hx : PlainName x) (h : StoreIs S r lo hi address)
    (hof : Address.Of S regs opened used x address) (hm : Holds S hidden regs opened m.locals)
    (hlen : opened.length ≤ r) (hr : r < 255) (hused : used ≤ r) :
    ∃ regs', S.Reaches A ⟨lo.pc, regs, m.globals⟩ ⟨hi.pc, regs', (m.write x (regs r)).globals⟩ ∧
      Holds S hidden regs' opened (m.write x (regs r)).locals ∧
      ∀ k, opened.length ≤ k → regs' k = regs k := by
  have hlookup := hm.lookup_eq hx
  cases hof with
  | @register v hlocal =>
    obtain ⟨hcode, rfl⟩ := h
    have hlt := hm.slot_lt hlocal
    simp only [Memory.write, hlookup, hlocal, Option.map_some, Option.isSome_some, if_true]
    exact ⟨_, hcode.move (by omega) (by omega), hm.store hx hlocal _,
      fun k hk => Function.update_of_ne (by omega) _ _⟩
  | global hlocal =>
    obtain ⟨i, hpool, hreach, hcode, rfl⟩ := h
    simp only [Memory.write, hlookup, hlocal, Option.map_none, Option.isSome_none,
      Bool.false_eq_true, if_false]
    have hle : i ≤ 255 := Nat.le_trans hreach hS.reach
    have hkey : (Operand.constant i).Carries S regs 255 (.string x) := ⟨hle, hpool.value rfl⟩
    exact ⟨regs, hcode.setTabUp (hkey.field le_rfl) (Or.inl ⟨by omega, rfl⟩), hm,
      fun _ _ => rfl⟩
  | globalLoaded hlocal _ hlt hkey =>
    obtain ⟨hcode, rfl⟩ := h
    simp only [Memory.write, hlookup, hlocal, Option.map_none, Option.isSome_none,
      Bool.false_eq_true, if_false]
    exact ⟨regs, hcode.setTabUp (Or.inl ⟨by omega, hkey⟩) (Or.inl ⟨by omega, rfl⟩), hm,
      fun _ _ => rfl⟩

theorem StoresAre.runs {value : Nat} (hS : S.Chunk) (hnames : ∀ x ∈ names, PlainName x)
    (h : StoresAre S addresses value lo hi)
    (hof : List.Forall₂ (Address.Of S regs opened used) names addresses)
    (hm : Holds S hidden regs opened m.locals) (hlen : opened.length ≤ used) (hused : used ≤ value)
    (hmax : value + names.length ≤ 255) (hvals : InRow regs value names.length vs) :
    ∃ regs', S.Reaches A ⟨lo.pc, regs, m.globals⟩ ⟨hi.pc, regs', (m.writeAll names vs).globals⟩ ∧
      Holds S hidden regs' opened (m.writeAll names vs).locals := by
  induction names generalizing addresses value lo regs m vs with
  | nil =>
    cases hof
    obtain rfl : hi = lo := h
    exact ⟨regs, .refl, hm⟩
  | cons x rest ih =>
    rw [List.forall_mem_cons] at hnames
    rw [List.length_cons] at hmax hvals
    cases hof with
    | cons hfirst hmore =>
      obtain ⟨hstore, hrest⟩ := h
      obtain ⟨regs₁, hrun₁, hm₁, hkeep⟩ :=
        hstore.runs (A := A) hS hnames.1 hfirst hm (by omega) (by omega) hused
      rw [hvals.head] at hrun₁ hm₁
      have hmore' := hmore.imp fun _ _ h => h.keep (fun r hlo _ => hkeep r hlo) le_rfl
      have htail : InRow regs₁ (value + 1) rest.length vs.tail := fun k hk =>
        (hkeep _ (by omega)).trans (hvals.tail k hk)
      obtain ⟨regs', hrun, hm'⟩ := ih hnames.2 hrest hmore' hm₁ (by omega) (by omega) htail
      exact ⟨regs', hrun₁.trans hrun, hm'⟩

theorem AssignIs.simulates (hS : S.Chunk) (hparts : ∀ p ∈ parts, p.Computes A S ∧ p.exp.FirstOrder)
    (hnames : ∀ x ∈ names, PlainName x) (hvs : Part.evalAll A m parts = some vs) :
    (AssignIs (names.map .name) parts).Simulates A S m .normal (m.writeAll names vs) := by
  intro hidden regs exit P P' h hlen hm
  obtain ⟨addresses, used, mid₁, mid₂, hi, haddr, hload, hstores, rfl⟩ := h
  obtain ⟨regs₁, hrun₁, hof, hkeep₁, hle, hmax⟩ :=
    haddr.runs (A := A) hS hnames hm le_rfl hlen
  have hm₁ := hm.frame hkeep₁
  obtain ⟨regs₂, hrun₂, hvals, hkeep₂, hmax₂⟩ := hload.runs hS hparts hm₁ hle hmax hvs
  rw [List.length_map] at hvals hmax₂
  have hof₂ := hof.imp fun _ _ h => h.keep (fun r _ hr => hkeep₂ r hr) le_rfl
  have hm₂ := hm₁.frame fun r hr => hkeep₂ r (by omega)
  obtain ⟨regs', hrun₃, hm'⟩ :=
    hstores.runs (A := A) hS hnames hof₂ hm₂ hle le_rfl hmax₂ hvals
  exact ⟨regs', (hrun₁.trans hrun₂).trans hrun₃, hm'⟩

/-! ## Returns -/

theorem countCode_natCast (h : n ≤ 255) : countCode (n : Int) = n + 1 := by
  rw [countCode]
  omega

theorem map_range_eq {base : Nat} (hlen : vs.length = n) (hvals : InRow regs base n vs) :
    ((List.range n).map fun k => regs (base + k)) = vs := by
  subst hlen
  refine List.ext_getElem (by simp) fun k hk hk' => ?_
  have hval := hvals k hk'
  simpa [List.getD_eq_getElem?_getD, List.getElem?_eq_getElem hk'] using hval

theorem ReturnIs.simulates (hS : S.Chunk) (hparts : ∀ p ∈ parts, p.Computes A S ∧ p.exp.FirstOrder)
    (hvs : Part.evalAll A m parts = some vs) :
    StatShape.Simulates A S (ReturnIs parts) m (.returned vs) m := by
  intro hidden regs exit P P' h hlen hm
  cases h with
  | nothing hnone hcode =>
    subst hnone
    obtain rfl : [] = vs := Option.some.inj hvs
    have hret : S.Has P.pc (.abc .ret 0 (countCode 0) 0) := hcode.has
    exact hret.ret (n := 0) (by omega) (by omega)
  | @register x p v hone hname hlocal hcode =>
    subst hone
    have hfirst := (hparts p List.mem_cons_self).2
    obtain ⟨u, us, rfl, hu, hus⟩ := Part.evalAll_cons hvs
    obtain rfl : [] = us := Option.some.inj hus
    rw [hname] at hfirst hu
    have hlt := hm.slot_lt hlocal
    have hval : regs v.slot = u := by
      simpa [Expr.eval, Memory.read, hm.lookup_eq hfirst, hlocal] using hu
    rw [← hval]
    exact hcode.1.ret (n := 1) (by omega) (by omega)
  | @loaded n mid hload hcode =>
    have hlast := Part.expands_eq_false fun p hp => (hparts p hp).2
    rw [AllIs, hlast] at hload
    obtain ⟨heach, rfl⟩ : EachIs S P.opened 1 parts P.opened.length P.toMark mid ∧
        n = parts.length := hload
    obtain ⟨regs', hrun, hvals, -, hmax⟩ :=
      heach.runs hS (fun p hp => (hparts p hp).1) hm le_rfl hlen hvs
    have hhas := hcode.1
    rw [countCode_natCast (by omega)] at hhas
    rw [← map_range_eq (Part.length_evalAll hvs) hvals]
    exact Reaches.halts hrun (hhas.ret (by omega) (by omega))

end LuaLowering
