import LuaLowering.Proofs.Lowering
import LuaLowering.Proofs.Stores.Addresses
import LuaLowering.Proofs.Stores.Disturbance

/-!
# The stores of an assignment

An assignment ends with one store for each of its targets. What a store needs was put
where no other target is, with one exception: the table of globals is used from where it
is, a local or an upvalue of the name `_ENV`. A target that is this variable is stored
like any other, and the stores to globals behind it go to the new table.

Apart from that a store does not disturb another, as long as the visible locals are in
registers that are in use. Then every store goes where it would have gone before the first
of them.
-/

namespace LuaLowering

open LowerM

variable {w w' : Workspace} {line v : Nat} {k : Nat} {key : Option Nat} {y : String}

/-! ## The instructions -/

/-- The field of a key that was put in a register or is a constant. -/
def KeyIn (field : Nat) : Option Nat → Prop
  | some q => field = q
  | none => ∃ i, field = Instruction.constantField i

/-- The instruction that stores the register `v` at an address. -/
inductive Address.Stored (v : Nat) : Address → Instruction → Prop
  | register (r : Nat) : Stored v (.register r) (.abc .move r v 0)
  | upvalue (u : Nat) : Stored v (.upvalue u) (.abc .setUpval v u 0)
  | field (t k : Nat) : Stored v (.field t k) (.abc .setTable t k v)
  | outer {x : String} {key : Option Nat} {k : Nat} (u : Nat) (hkey : KeyIn k key) :
      Stored v (.global (.upvalue u) x key) (.abc .setTabUp u k v)
  | global {x : String} {key : Option Nat} {k : Nat} (env : Operand) (hkey : KeyIn k key)
      (henv : ∀ u, env ≠ .upvalue u) :
      Stored v (.global env x key) (.abc .setTable env.field k v)

theorem globalKey_writes (x : String) (key : Option Nat) :
    Ensures False (globalKey x key) w fun k w' =>
      w.Writes [] w' ∧ w'.used = w.used ∧ KeyIn k key := by
  cases key with
  | some q => exact ⟨.refl w, rfl, rfl⟩
  | none =>
    refine (constantIndex_writes (.string x)).bind fun i w₁ h => ?_
    exact ⟨h.1, h.2.1, i, rfl⟩

theorem store_writes (line v : Nat) (address : Address) :
    Ensures False (store line v address) w fun _ w' =>
      ∃ i, w.Writes [i] w' ∧ address.Stored v i := by
  cases address with
  | register r => exact (plain_writes line .move r v 0).mono fun _ _ h => ⟨_, h.1, .register r⟩
  | upvalue u => exact (plain_writes line .setUpval v u 0).mono fun _ _ h => ⟨_, h.1, .upvalue u⟩
  | field t k => exact (plain_writes line .setTable t k v).mono fun _ _ h => ⟨_, h.1, .field t k⟩
  | global env x key =>
    refine (globalKey_writes x key).bind fun k w₁ h => ?_
    obtain ⟨hwrites, -, hkey⟩ := h
    cases env with
    | upvalue u =>
      exact (plain_writes line .setTabUp u k v).mono fun _ _ h =>
        ⟨_, hwrites.append h.1, .outer u hkey⟩
    | register r =>
      exact (plain_writes line .setTable r k v).mono fun _ _ h =>
        ⟨_, hwrites.append h.1, .global (.register r) hkey nofun⟩
    | constant i =>
      exact (plain_writes line .setTable _ k v).mono fun _ _ h =>
        ⟨_, hwrites.append h.1, .global (.constant i) hkey nofun⟩

/-- One instruction is written for each address. -/
theorem storeAll_writes (line : Nat) (addresses : List Address) :
    ∀ (w : Workspace) (v : Nat), Ensures False (storeAll line addresses v) w fun _ w' =>
      ∃ is, w.Writes is w' ∧ is.length = addresses.length ∧
        ∀ (k : Nat) (address : Address), addresses[k]? = some address →
          ∃ i, is[k]? = some i ∧ address.Stored (v + k) i := by
  induction addresses with
  | nil => exact fun w v => ⟨[], .refl w, rfl, nofun⟩
  | cons address rest ih =>
    intro w v
    refine (store_writes line v address).bind fun _ w₁ h => ?_
    obtain ⟨i, hwrites, hstored⟩ := h
    refine (ih w₁ (v + 1)).mono fun _ w₂ h => ?_
    obtain ⟨is, hrest, hlength, hall⟩ := h
    refine ⟨i :: is, hwrites.append hrest, congrArg (· + 1) hlength, fun k address' hk => ?_⟩
    cases k with
    | zero =>
      cases hk
      exact ⟨i, rfl, hstored⟩
    | succ k =>
      obtain ⟨i', hi', hstored'⟩ := hall k address' hk
      exact ⟨i', hi', by rwa [Nat.add_right_comm, Nat.add_assoc] at hstored'⟩

/-! ## Which targets can disturb others -/

theorem forall₂_getElem? {α β : Type} {P : α → β → Prop} {xs : List α} {ys : List β} {x : α}
    (h : List.Forall₂ P xs ys) (hk : xs[k]? = some x) : ∃ y, ys[k]? = some y ∧ P x y := by
  obtain ⟨hlt, rfl⟩ := List.getElem?_eq_some_iff.mp hk
  have hlt' : k < ys.length := h.length_eq ▸ hlt
  exact ⟨ys[k], List.getElem?_eq_getElem hlt', List.Forall₂.get h hlt hlt'⟩

namespace Workspace

/-- Whether a target is a global. -/
def isGlobal (w : Workspace) : Target → Bool
  | .name x => (w.slot? x).isNone && !w.knows x
  | .index _ _ => false

/-- Whether a target is the variable that the table of globals is in. -/
def holdsGlobals (w : Workspace) : Target → Bool
  | .name x =>
    match w.slot? "_ENV" with
    | some r => w.slot? x == some r
    | none => x == "_ENV"
  | .index _ _ => false

/-- Whether storing to one target changes where a store to the other goes. -/
def exposes (w : Workspace) (s t : Target) : Bool := w.holdsGlobals s && w.isGlobal t

/-- A visible local is in a register that is not in use. -/
def Stray (w : Workspace) : Prop := ∃ x r, w.slot? x = some r ∧ w.used ≤ r

end Workspace

namespace Address.Stored

open Workspace Instruction

variable {lo hi r u : Nat} {upvalues : Array Capture} {t : Target} {address : Address}
  {i : Instruction}

theorem isStore (h : address.Stored v i) : i.isStore = true := by
  cases h <;> simp [Instruction.isStore]

theorem isConstant_constantField (k : Nat) : isConstant (constantField k % 0x200) = true := by
  rw [isConstant, decide_eq_true_iff, constantField]
  split
  · next h =>
    rw [isConstant, decide_eq_true_iff] at h
    omega
  · next h =>
    rw [isConstant, decide_eq_true_iff] at h
    omega

/-- A key that is in a register is one of the registers that were free. -/
theorem le_of_key (h : KeyIn k key) (hkey : ∀ q, key = some q → lo ≤ q ∧ q < hi) (hhi : hi ≤ 0x100)
    (hregister : isConstant (k % 0x200) = false) : lo ≤ k % 0x200 := by
  cases key with
  | some q =>
    obtain rfl : k = q := h
    have := hkey k rfl
    omega
  | none =>
    obtain ⟨i, rfl⟩ := h
    rw [isConstant_constantField] at hregister
    cases hregister

/-- The registers that a store reads are above `lo`, that of the globals apart. -/
theorem reads (h : address.Stored v i) (hloc : w.Locates lo hi upvalues t address)
    (hv : lo ≤ v ∧ v < 0x100) (hhi : hi ≤ 0x100) (hr : i.ReadsRegister r) :
    lo ≤ r ∨ w.isGlobal t = true ∧ ∃ q, w.slot? "_ENV" = some q ∧ r = q % 0x100 := by
  cases h with
  | register | upvalue =>
    simp only [readsRegister_move, readsRegister_setUpval, opcode?_abc, a_abc, b_abc] at hr
    omega
  | field t k =>
    cases hloc with
    | field ht hk =>
      simp only [readsRegister_setTable, opcode?_abc, a_abc, b_abc, c_abc] at hr
      omega
  | outer u hkey =>
    cases hloc with
    | global hx hknows henv hbounds =>
      rcases (readsRegister_setTabUp (opcode?_abc ..)).mp hr with ⟨hkind, rfl⟩ | ⟨-, rfl⟩
      · rw [b_abc] at hkind ⊢
        exact Or.inl (le_of_key hkey hbounds hhi hkind)
      · rw [c_abc]
        omega
  | global env hkey henv =>
    cases hloc with
    | global hx hknows hglobals hbounds =>
      rcases (readsRegister_setTable (opcode?_abc ..)).mp hr with
        rfl | ⟨hkind, rfl⟩ | ⟨-, rfl⟩
      · cases env with
        | register q =>
          rw [a_abc]
          exact Or.inr ⟨by simp [isGlobal, hx, hknows], q, hglobals, rfl⟩
        | upvalue u => exact absurd rfl (henv u)
        | constant => exact hglobals.elim
      · rw [b_abc] at hkind ⊢
        exact Or.inl (le_of_key hkey hbounds hhi hkind)
      · rw [c_abc]
        omega

/-- The register that a store writes is that of a local. -/
theorem writes (h : address.Stored v i) (hloc : w.Locates lo hi upvalues t address)
    (hr : i.WritesRegister r) : ∃ x q, t = .name x ∧ w.slot? x = some q ∧ r = q % 0x100 := by
  cases h with
  | register q =>
    cases hloc with
    | @register x _ hx =>
      rw [writesRegister_move (opcode?_abc ..), a_abc] at hr
      exact ⟨x, q, rfl, hx, hr⟩
  | upvalue | field | outer | global =>
    exact absurd hr (not_writesRegister (opcode?_abc ..) (by decide))

/-- The upvalue that a store assigns is that of its target. -/
theorem assigned (h : address.Stored v i) (hloc : w.Locates lo hi upvalues t address)
    (hcount : upvalues.size ≤ maxUpvalues) (hu : i.assigned? = some u) :
    ∃ x c, t = .name x ∧ w.slot? x = none ∧ upvalues[u]? = some c ∧ c.name = x := by
  cases h with
  | upvalue q =>
    cases hloc with
    | @upvalue x _ c hx hc hname =>
      have hlt : q < upvalues.size := (Array.getElem?_eq_some_iff.mp hc).1
      have hmax : maxUpvalues = 255 := rfl
      have hq : q % 0x200 = q := by omega
      simp only [assigned?, opcode?_abc, b_abc, hq, if_true, Option.some.injEq] at hu
      subst hu
      exact ⟨x, c, rfl, hx, hc, hname⟩
  | register | field | outer | global => simp [assigned?] at hu

/-- The upvalue that a store consults is that of the globals. -/
theorem consulted (h : address.Stored v i) (hloc : w.Locates lo hi upvalues t address)
    (hcount : upvalues.size ≤ maxUpvalues) (hu : u ∈ i.consulted) :
    w.isGlobal t = true ∧ w.slot? "_ENV" = none ∧ ∃ c, upvalues[u]? = some c ∧ c.name = "_ENV" := by
  cases h with
  | outer q hkey =>
    cases hloc with
    | global hx hknows henv _ =>
      obtain ⟨hnone, c, hc, hname⟩ := henv
      have hlt : q < upvalues.size := (Array.getElem?_eq_some_iff.mp hc).1
      have hmax : maxUpvalues = 255 := rfl
      have hq : q % 0x100 = q := by omega
      simp only [Instruction.consulted, opcode?_abc, upvalues_eq (opcode?_abc ..),
        Opcode.upvalues, a_abc, hq, Option.some.injEq, reduceCtorEq, if_false,
        List.mem_singleton] at hu
      subst hu
      exact ⟨by simp [isGlobal, hx, hknows], hnone, c, hc, hname⟩
  | register | upvalue | field | global =>
    simp [Instruction.consulted, upvalues_eq (opcode?_abc ..)] at hu

variable {a b : Address} {i' : Instruction} {s : Target} {v' : Nat}

/-- Only a store to the variable of the globals can disturb another store. -/
theorem exposes_of_disturbs (ha : a.Stored v i) (hb : b.Stored v' i')
    (hs : w.Locates w.used hi upvalues s a) (ht : w.Locates w.used hi upvalues t b)
    (hv : w.used ≤ v' ∧ v' < 0x100) (hhi : hi ≤ 0x100) (hcount : upvalues.size ≤ maxUpvalues)
    (hstray : ¬ w.Stray) (h : i.Disturbs i') : w.exposes s t = true := by
  have hslots : ∀ x q, w.slot? x = some q → q % 0x100 = q ∧ q < w.used := by
    intro x q hx
    have hlt : q < w.used := Nat.lt_of_not_le fun hle => hstray ⟨x, q, hx, hle⟩
    omega
  rcases h with ⟨r, hwrites, hreads⟩ | ⟨u, hassigned, hconsulted⟩
  · obtain ⟨x, q, rfl, hx, rfl⟩ := ha.writes hs hwrites
    rcases hb.reads ht hv hhi hreads with hle | ⟨hglobal, q', henv, heq⟩
    · have := hslots x q hx
      omega
    · rw [(hslots x q hx).1, (hslots _ q' henv).1] at heq
      subst heq
      simp [exposes, holdsGlobals, henv, hx, hglobal]
  · obtain ⟨x, c, rfl, -, hc, rfl⟩ := ha.assigned hs hcount hassigned
    obtain ⟨hglobal, hnone, c', hc', hname⟩ := hb.consulted ht hcount hconsulted
    obtain rfl : c = c' := Option.some.inj (hc.symm.trans hc')
    simp [exposes, holdsGlobals, hnone, hname, hglobal]

/-- A store to the local that the globals are in disturbs every store through it. -/
theorem disturbs_local {x : String} {q : Nat} (hx : w.slot? x = some q)
    (hs : w.Locates lo hi upvalues (.name x) a) (ha : a.Stored v i)
    (hb : (Address.global (.register q) y key).Stored v' i') : i.Disturbs i' := by
  cases hs with
  | upvalue hx' => simp [hx] at hx'
  | global hx' => simp [hx] at hx'
  | @register _ q' hx' =>
    obtain rfl : q = q' := Option.some.inj (hx.symm.trans hx')
    cases ha
    cases hb
    refine Or.inl ⟨q % 0x100, (writesRegister_move (opcode?_abc ..)).mpr ?_,
      (readsRegister_setTable (opcode?_abc ..)).mpr (Or.inl ?_)⟩
    · rw [a_abc]
    · rw [a_abc, Operand.field]

/-- A store to the upvalue that the globals are in disturbs every store through it. -/
theorem disturbs_outer {c : Capture} (hnone : w.slot? "_ENV" = none) (hc : upvalues[u]? = some c)
    (hname : c.name = "_ENV") (hcount : upvalues.size ≤ maxUpvalues)
    (hdistinct : Distinct (fun c c' : Capture => c.name = c'.name) upvalues)
    (hknown : ∀ c ∈ upvalues, w.knows c.name = true)
    (hs : w.Locates lo hi upvalues (.name "_ENV") a) (ha : a.Stored v i)
    (hb : (Address.global (.upvalue u) y key).Stored v' i') : i.Disturbs i' := by
  cases hs with
  | register hx => simp [hnone] at hx
  | global _ hunknown =>
    have hknows := hknown c (Array.mem_of_getElem? hc)
    simp [hname, hunknown] at hknows
  | @upvalue _ u' c' _ hc' hname' =>
    obtain rfl : u = u' := hdistinct u u' c c' hc hc' (hname.trans hname'.symm)
    have hlt : u < upvalues.size := (Array.getElem?_eq_some_iff.mp hc).1
    have hmax : maxUpvalues = 255 := rfl
    have hb' : u % 0x200 = u := by omega
    have ha' : u % 0x100 = u := by omega
    cases ha
    cases hb with
    | global _ _ hne => exact absurd rfl (hne u)
    | outer =>
      refine Or.inr ⟨u, by simp [assigned?, hb'], ?_⟩
      simp [Instruction.consulted, upvalues_eq (opcode?_abc ..), ha']

/-- A store to the variable of the globals does disturb every store to a global. -/
theorem disturbs_of_exposes (ha : a.Stored v i) (hb : b.Stored v' i')
    (hs : w.Locates lo hi upvalues s a) (ht : w.Locates lo hi upvalues t b)
    (hcount : upvalues.size ≤ maxUpvalues)
    (hdistinct : Distinct (fun c c' : Capture => c.name = c'.name) upvalues)
    (hknown : ∀ c ∈ upvalues, w.knows c.name = true) (h : w.exposes s t = true) :
    i.Disturbs i' := by
  obtain ⟨hholds, hglobal⟩ := (Bool.and_eq_true _ _).mp h
  cases ht with
  | register hy => simp [isGlobal, hy] at hglobal
  | upvalue _ hc hname =>
    have hknows := hknown _ (Array.mem_of_getElem? hc)
    simp [isGlobal, ← hname, hknows] at hglobal
  | field => cases hglobal
  | @global y env key hy hunknown henv hkey =>
    cases s with
    | index => cases hholds
    | name x =>
      cases env with
      | constant => exact henv.elim
      | register q =>
        have hslot : w.slot? "_ENV" = some q := henv
        have hx : w.slot? x = some q := by simpa [holdsGlobals, hslot] using hholds
        exact disturbs_local hx hs ha hb
      | upvalue u =>
        obtain ⟨hnone, c, hc, hname⟩ := henv
        obtain rfl : x = "_ENV" := by simpa [holdsGlobals, hnone] using hholds
        exact disturbs_outer hnone hc hname hcount hdistinct hknown hs ha hb

end Address.Stored

/-! ## Assignments -/

/-- The code of an assignment. The targets are located, the values are put above, and then
there is one store for each target. -/
structure Workspace.Laid (w : Workspace) (targets : List Target) (limit first value : Nat)
    (w' : Workspace) : Prop where
  start : w.draft.pc ≤ first
  finish : w'.draft.pc = first + targets.length
  used : w.used ≤ value
  room : value + targets.length ≤ limit
  stored : ∀ k t, targets[k]? = some t → ∃ address i,
    w.Locates w.used value w'.draft.upvalues t address ∧ w'.draft.code[first + k]? = some i ∧
      address.Stored (value + k) i

theorem assign_laid {o : Options} (hw : w.Sound o) (targets : List Target) (values : List Expr)
    (line : Nat) :
    Ensures False (Stat.assign targets values line).lower w fun _ w' =>
      ∃ first value, w.Laid targets o.registerLimit first value w' := by
  rw [Stat.lower, lowerAssign, Target.length_sources]
  have hline := (prepares_of_quiet (setLine_neutral line).quiet (fun hP => hP.setLine line) w).and
    ((setLine_neutral line).vets w).ensures
  refine hline.bind fun _ w₁ h => ?_
  obtain ⟨hprep₁, -, hused₁⟩ := h
  rw [ensures_usedRegisters_bind]
  refine (addressesOf_locates line targets w₁).bind fun addresses w₂ h => ?_
  obtain ⟨hprep₂, hle, hlocates⟩ := h
  rw [ensures_usedRegisters_bind]
  have hvetted := Expr.sources_vetted values
  have hload := (prepares_of_quiet (loadAdjusted_quiet hvetted targets.length line)
    (fun hP => hP.loadAdjusted _ (Stepwise.exprs hP values) line) w₂).and
    (loadAdjusted_used hvetted targets.length line)
  refine hload.bind fun _ w₃ h => ?_
  obtain ⟨hprep₃, hused₃⟩ := h
  refine (storeAll_writes line addresses w₃ w₂.used).bind fun _ w₄ h => ?_
  obtain ⟨is, hwrites, hcount, hstored⟩ := h
  refine (freeRegistersTo_writes w₁.used).mono fun _ w₅ h => ?_
  obtain ⟨hfree, -, -⟩ := h
  have hprep := (hprep₁.trans hprep₂).trans hprep₃
  have hsound := hw.evolves hprep.evolves
  have hroom : w₃.used ≤ w₃.draft.registers.peak := (hsound.drafts _ List.mem_cons_self).used
  have hlimit := hsound.limit _ List.mem_cons_self
  have hpeak := w₃.draft.registers.peak_le
  have hupvalues := (hprep₃.upvalues.trans hwrites.grows.upvalues).trans hfree.grows.upvalues
  have hpc₄ : w₄.draft.pc = w₃.draft.pc + is.length := hwrites.pc
  have hpc₅ : w₅.draft.pc = w₄.draft.pc := hfree.pc
  refine ⟨w₃.draft.pc, w₂.used, hprep.pc, ?_, by omega, by omega, fun k t hk => ?_⟩
  · rw [hpc₅, hpc₄, hcount, hlocates.length_eq]
  · obtain ⟨address, haddress, hloc⟩ := forall₂_getElem? hlocates hk
    obtain ⟨i, hi, hkind⟩ := hstored k address haddress
    have hlt : k < is.length := (List.getElem?_eq_some_iff.mp hi).1
    have hcode := (hfree.grows.code _ (by omega)).trans (hwrites.code k i hi)
    exact ⟨address, i, hloc.widen hprep₁.slot? hprep₁.knows (Nat.le_of_eq hused₁.symm)
      le_rfl hupvalues, hcode, hkind⟩

namespace Workspace.Laid

variable {targets : List Target} {limit first value j k : Nat} {s t : Target} {i i' : Instruction}

/-- The store of a target, with where the target is. -/
theorem locates (h : w.Laid targets limit first value w') (hk : targets[k]? = some t)
    (hi : w'.draft.code[first + k]? = some i) : ∃ address,
      w.Locates w.used value w'.draft.upvalues t address ∧ address.Stored (value + k) i := by
  obtain ⟨address, i', hloc, hi', hkind⟩ := h.stored k t hk
  obtain rfl : i = i' := Option.some.inj (hi.symm.trans hi')
  exact ⟨address, hloc, hkind⟩

theorem stores (h : w.Laid targets limit first value w') (hk : k < targets.length) :
    ∃ i, w'.draft.code[first + k]? = some i ∧ i.isStore = true := by
  obtain ⟨address, i, -, hi, hkind⟩ := h.stored k _ (List.getElem?_eq_getElem hk)
  exact ⟨i, hi, hkind.isStore⟩

theorem exposes_of_disturbs (h : w.Laid targets limit first value w') (hlimit : limit ≤ 255)
    (hcount : w'.draft.upvalues.size ≤ maxUpvalues) (hstray : ¬ w.Stray)
    (hj : targets[j]? = some s) (hk : targets[k]? = some t)
    (hi : w'.draft.code[first + j]? = some i) (hi' : w'.draft.code[first + k]? = some i')
    (hdisturbs : i.Disturbs i') : w.exposes s t = true := by
  obtain ⟨a, hlocs, ha⟩ := h.locates hj hi
  obtain ⟨b, hloct, hb⟩ := h.locates hk hi'
  have hlt : k < targets.length := (List.getElem?_eq_some_iff.mp hk).1
  have hused := h.used
  have hroom := h.room
  exact ha.exposes_of_disturbs hb hlocs hloct (by omega) (by omega) hcount hstray hdisturbs

end Workspace.Laid

/-- How the stores of an assignment stand to each other. -/
structure Workspace.Assigns (w : Workspace) (targets : List Target) (first : Nat)
    (w' : Workspace) : Prop where
  start : w.draft.pc ≤ first
  finish : w'.draft.pc = first + targets.length
  /-- There is one store for each target, in order. -/
  stores : ∀ k < targets.length, ∃ i, w'.draft.code[first + k]? = some i ∧ i.isStore = true
  /-- A store changes what a later one reads if the one is to the variable of the globals and
  the other to a global, -/
  exposed : ∀ (j k : Nat) (s t : Target) (i i' : Instruction), j < k → targets[j]? = some s →
    targets[k]? = some t → w'.draft.code[first + j]? = some i →
    w'.draft.code[first + k]? = some i' → w.exposes s t = true → i.Disturbs i'
  /-- and only then, unless a local is in a register that is not in use. -/
  disturbed : ∀ (j k : Nat) (s t : Target) (i i' : Instruction), j < k → targets[j]? = some s →
    targets[k]? = some t → w'.draft.code[first + j]? = some i →
    w'.draft.code[first + k]? = some i' → i.Disturbs i' → w.exposes s t = true ∨ w.Stray
  /-- Otherwise a store goes where it would have gone before any other was made, and stores
  the same value. -/
  settled : ∀ {V H : Type} (I : Interpretation V H) (p : Prototype)
    (states : Nat → Evaluation.State V H) (k : Nat) (t : Target),
    (∀ pc, first ≤ pc → pc < w'.draft.pc → p.code[pc]? = w'.draft.code[pc]?) →
    (states 0).pc = first → (∀ j < k, Evaluation.step I p (states j) = some (states (j + 1))) →
    targets[k]? = some t → (∀ j < k, ∀ s, targets[j]? = some s → w.exposes s t = false) →
    ¬ w.Stray →
    Evaluation.storeAt? I p (states k) (first + k) = Evaluation.storeAt? I p (states 0) (first + k)

/-- Only a store to the variable of the globals can disturb a later store of the same
assignment. -/
theorem assign_stores {o : Options} {targets : List Target} {values : List Expr}
    (hreach : Reachable o w) (hlimit : o.registerLimit ≤ 255)
    (hrun : (Stat.assign targets values line).lower w = .ok () w') :
    ∃ first, w.Assigns targets first w' := by
  obtain ⟨first, value, hlaid⟩ := (assign_laid hreach.sound targets values line).of_ok hrun
  have hsound := (hreach.sound.evolves ((Operation.stat _).evolving _ |>.of_ok hrun)).drafts _
    List.mem_cons_self
  have hknown : ∀ c ∈ w'.draft.upvalues, w.knows c.name = true := fun c hc =>
    ((Operation.stat _).knows hrun c.name).symm.trans (w'.draft.knows_of_mem hc w'.enclosing)
  refine ⟨first, hlaid.start, hlaid.finish, fun k hk => hlaid.stores hk,
    fun j k s t i i' _ hj hk hi hi' hexposes => ?_, fun j k s t i i' _ hj hk hi hi' hdisturbs => ?_,
    fun I p states k t hcode hpc hsteps hk hhidden hstray => ?_⟩
  · obtain ⟨a, hlocs, ha⟩ := hlaid.locates hj hi
    obtain ⟨b, hloct, hb⟩ := hlaid.locates hk hi'
    exact ha.disturbs_of_exposes hb hlocs hloct hsound.count hsound.upvalues hknown hexposes
  · by_cases hstray : w.Stray
    · exact Or.inr hstray
    · exact Or.inl (hlaid.exposes_of_disturbs hlimit hsound.count hstray hj hk hi hi' hdisturbs)
  · have hlt : k < targets.length := (List.getElem?_eq_some_iff.mp hk).1
    have hfinish := hlaid.finish
    have hcode' : ∀ j ≤ k, p.code[first + j]? = w'.draft.code[first + j]? := fun j hj =>
      hcode _ (by omega) (by omega)
    refine Evaluation.storeAt?_eq_of_undisturbed hpc (fun j hj => ?_) hsteps
      fun j hj i i' hi hi' hdisturbs => ?_
    · rw [hcode' j (by omega)]
      exact hlaid.stores (by omega)
    · have hs := List.getElem?_eq_getElem (Nat.lt_trans hj hlt)
      rw [hcode' j (by omega)] at hi
      rw [hcode' k (by omega)] at hi'
      have hexposes := hlaid.exposes_of_disturbs hlimit hsound.count hstray hs hk hi hi' hdisturbs
      rw [hhidden j hj _ hs] at hexposes
      cases hexposes

/-- `_ENV, x = 1, 2`, where the store to `x` goes to the new table of globals. -/
theorem assign_stores_of_globals :
    let s : Stat := .assign [.name "_ENV", .name "x"] [.integer 1, .integer 2] 1
    ∃ w' i i', s.lower (.main {}) = .ok () w' ∧ w'.draft.pc = 4 ∧ w'.draft.code[2]? = some i ∧
      w'.draft.code[3]? = some i' ∧ i.Disturbs i' := by
  intro s
  have hlower : (match s.lower (.main {}) with
      | .ok _ w' => decide (w'.draft.pc = 4)
      | _ => false) = true := by decide +kernel
  have hexposes : (Workspace.main {}).exposes (.name "_ENV") (.name "x") = true := by
    decide +kernel
  split at hlower
  · next w' hrun =>
    have hpc := of_decide_eq_true hlower
    obtain ⟨first, h⟩ := assign_stores .main (by decide) hrun
    have hfinish : w'.draft.pc = first + 2 := h.finish
    obtain rfl : first = 2 := by omega
    obtain ⟨i, hi, -⟩ := h.stores 0 (by decide)
    obtain ⟨i', hi', -⟩ := h.stores 1 (by decide)
    exact ⟨w', i, i', hrun, hpc, hi, hi', h.exposed 0 1 _ _ i i' (by decide) rfl rfl hi
      hi' hexposes⟩
  · cases hlower

end LuaLowering
