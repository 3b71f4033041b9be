import LuaLowering.Proofs.Lowering.Statement

/-!
# Lowering assignments

The targets are settled first, then the values are loaded, then they are stored.
In between, the pool of constants grows, but the name of a global that could be
reached by an operand when its target was settled can still be reached when it is
stored (`Address.Ready`): the search for it finds the first entry that serves.
-/

namespace LuaLowering

open LowerM

variable {safe : Prop} {w : Workspace} {S : Site} {address : Address}

/-- A target is lowered to its part. -/
inductive TargetSource.Meets (safe : Prop) : TargetSource → TargetPart → Prop
  | name (x : String) : TargetSource.Meets safe (.name x) (.name x)
  | index {table key : Source} {tp kp : Part} (ht : table.Meets safe tp)
      (hk : key.Meets safe kp) : TargetSource.Meets safe (.index table key) (.index tp kp)

/-- Targets and their parts. -/
abbrev TargetSources.Meet (safe : Prop) : List TargetSource → List TargetPart → Prop :=
  List.Forall₂ (TargetSource.Meets safe)

/-- A global whose name was reached by an operand: some entry of the pool within
reach serves for it. -/
def Address.Ready (w : Workspace) : Address → Prop
  | .global _ x none => ∃ j, j ≤ w.options.constantLimit ∧
      w.draft.constants[j]? = some (.string x)
  | _ => True

theorem Address.Ready.continues {w' : Workspace} (h : address.Ready w)
    (hc : w.Continues w') : address.Ready w' := by
  unfold Address.Ready at h ⊢
  split at h
  · obtain ⟨j, hj, hentry⟩ := h
    exact ⟨j, hc.options ▸ hj, hc.draft.constants j _ hentry⟩
  · trivial

theorem Constant.eq_string_of_same {c : Constant} {x : String} (h : c.same (.string x) = true) :
    c = .string x := by
  cases c with
  | string y => exact congrArg _ (eq_of_beq h)
  | _ => cases h

theorem globalAddress_spec (hw : w.Wf) (x : String) (line : Nat) :
    Ensures safe (globalAddress x line) w fun address w' => w.used ≤ w'.used ∧ address.Ready w' ∧
      Loads [] w w' fun S => S.local? w.opened x = none → S.Unknown x →
        AddressIs S w.opened w.used w.mark (.name x) address w'.used w'.mark := by
  unfold globalAddress
  refine (globalsOperand_spec hw).bind fun env w₁ => ?_
  rintro ⟨hused₁, hmark₁, hload₁⟩
  refine (constantIndex_spec hload₁.wf (.string x)).bind fun i w₂ => ?_
  rintro ⟨hused₂, hmark₂, -, ⟨c, hc, hserves⟩, hload₂⟩
  have hload₁₂ := hload₁.trans hload₂
  rw [ensures_options_bind]
  split
  · refine (takeRegister_spec hload₂.wf).bind fun r w₃ => ?_
    rintro ⟨rfl, hused₃, hmark₃, hload₃⟩
    have hr := hload₃.wf.reg_lt (show w₂.used < w₃.used by omega)
    refine (loadConstant_spec hload₃.wf line hr _).bind fun _ w₄ => ?_
    rintro ⟨hused₄, hload₄⟩
    have hload := (hload₁₂.trans hload₃).trans hload₄
    refine ⟨by omega, trivial, hload.mono
      fun S _ ⟨⟨⟨henv, _⟩, hroom⟩, hkey⟩ hlocal hunknown => ?_⟩
    have hu : w₂.used = w.used := hused₂.trans hused₁
    rw [hu] at hroom hkey ⊢
    rw [hused₄, hused₃, hu]
    rw [hmark₃, hmark₂, hmark₁] at hkey
    exact .globalLoaded hlocal hunknown henv hroom hkey
  · next hreach =>
    have hentry : w₂.draft.constants[i]? = some (.string x) := by
      rw [hc]
      exact congrArg some (hserves.elim id Constant.eq_string_of_same)
    refine ⟨Nat.le_of_eq (hused₂.trans hused₁).symm, ⟨i, Nat.le_of_not_lt hreach, hentry⟩,
      hload₁₂.mono fun S hS ⟨henv, hpool⟩ hlocal hunknown => ?_⟩
    rw [hused₂, hused₁, hmark₂, hmark₁]
    exact .global hlocal hunknown henv hpool (hS.options ▸ Nat.le_of_not_lt hreach)

theorem addressOf_spec {t : TargetSource} {p : TargetPart} (ht : t.Meets safe p) (hw : w.Wf)
    (line : Nat) :
    Ensures safe (addressOf line t) w fun address w' => w.used ≤ w'.used ∧ address.Ready w' ∧
      Loads [] w w' fun S => AddressIs S w.opened w.used w.mark p address w'.used w'.mark := by
  cases ht with
  | name x =>
    rw [addressOf]
    refine (slotOf?_spec hw x).bind fun r w' => ?_
    rintro ⟨rfl, hslot⟩
    cases r with
    | some r =>
      refine ⟨le_rfl, trivial, (Loads.refl hw).mono fun S hS _ => ?_⟩
      obtain ⟨v, hv, rfl⟩ := hslot S hS
      exact .register hv
    | none =>
      refine (upvalueOf?_spec hw x).bind fun u w₁ => ?_
      rintro ⟨hused₁, hmark₁, hload₁⟩
      cases u with
      | some u =>
        refine ⟨Nat.le_of_eq hused₁.symm, trivial, hload₁.mono fun S hS hup => ?_⟩
        rw [hused₁, hmark₁]
        exact .upvalue (hslot S (hS.back hload₁.continues)) hup
      | none =>
        refine (globalAddress_spec hload₁.wf x line).mono fun address w₂ => ?_
        rintro ⟨hused₂, hready, hload₂⟩
        have hload := hload₁.trans hload₂
        refine ⟨by omega, hready, hload.mono fun S hS ⟨hunknown, haddress⟩ => ?_⟩
        rw [hload₁.opened, hused₁, hmark₁] at haddress
        exact haddress (hslot S (hS.back hload.continues)) hunknown
  | index ht hk =>
    rw [addressOf]
    refine ht.load_next hw (fun _ => by omega) fun w₁ hused₁ hload₁ => ?_
    refine hk.load_next hload₁.wf (fun _ => by omega) fun w₂ hused₂ hload₂ => ?_
    rw [hload₁.opened, hused₁] at hload₂
    rw [hused₁] at hused₂ ⊢
    refine ⟨by omega, trivial, (hload₁.trans hload₂).mono fun S _ h => ?_⟩
    obtain ⟨⟨-, htable⟩, hroom, hkey⟩ := h
    rw [hused₂]
    exact .field hroom (htable .one) (hkey .one)

theorem addressesOf_spec {targets : List TargetSource} {parts : List TargetPart}
    (h : TargetSources.Meet safe targets parts) (line : Nat) :
    ∀ {w : Workspace}, w.Wf →
      Ensures safe (addressesOf line targets) w fun addresses w' => w.used ≤ w'.used ∧
        addresses.length = parts.length ∧ (∀ address ∈ addresses, address.Ready w') ∧
        Loads [] w w' fun S =>
          AddressesAre S w.opened parts addresses w.used w.mark w'.used w'.mark := by
  induction h with
  | nil =>
    intro w hw
    exact ⟨le_rfl, rfl, fun _ h => (List.not_mem_nil h).elim,
      (Loads.refl hw).mono fun _ _ _ => .nil⟩
  | cons ht _ ih =>
    intro w hw
    rw [addressesOf]
    refine (addressOf_spec ht hw line).bind fun address w₁ => ?_
    rintro ⟨hused₁, hready₁, hload₁⟩
    refine (ih hload₁.wf).bind fun addresses w₂ => ?_
    rintro ⟨hused₂, hlength, hready₂, hload₂⟩
    refine ⟨Nat.le_trans hused₁ hused₂, congrArg (· + 1) hlength,
      List.forall_mem_cons.mpr ⟨hready₁.continues hload₂.continues, hready₂⟩,
      (hload₁.trans hload₂).mono fun S _ haddresses => ?_⟩
    obtain ⟨hfirst, hmore⟩ := haddresses
    rw [hload₁.opened] at hmore
    exact .cons hfirst hmore

/-! ## Stores -/

/-- What an address consists of fits into every field. -/
def Address.Narrow : Address → Prop
  | .register r => r < 0x100
  | .upvalue u => u < 0x100
  | .field table key => table < 0x100 ∧ key < 0x100
  | .global env _ key => env.field < 0x100 ∧ ∀ r, key = some r → r < 0x100

theorem AddressIs.narrow {t : TargetPart} {used used' : Nat} {lo hi : Mark}
    (h : AddressIs S w.opened used lo t address used' hi) (hw : w.Wf) (hS : S.Ends w) :
    address.Narrow := by
  cases h with
  | register hlocal => exact hS.local_lt hw hlocal
  | upvalue _ hup => exact Nat.lt_succ_of_lt hup.1
  | global _ _ henv _ _ => exact ⟨henv.narrow hw hS, fun _ h => by cases h⟩
  | globalLoaded _ _ henv hroom _ =>
    refine ⟨henv.narrow hw hS, fun r h => ?_⟩
    obtain rfl := Option.some.inj h
    exact Nat.lt_succ_of_lt (hS.room_le hw hroom)
  | field hroom _ _ =>
    have hmax : used + 2 ≤ 255 := hS.room_le hw hroom
    exact ⟨by omega, by omega⟩

theorem AddressesAre.narrow {targets : List TargetPart} {addresses : List Address}
    {used used' : Nat} {lo hi : Mark}
    (h : AddressesAre S w.opened targets addresses used lo used' hi) (hw : w.Wf) (hS : S.Ends w) :
    ∀ address ∈ addresses, address.Narrow := by
  induction h with
  | nil => exact fun _ h => (List.not_mem_nil h).elim
  | cons hfirst _ ih => exact List.forall_mem_cons.mpr ⟨hfirst.narrow hw hS, ih⟩

theorem keeps_globalWrite {env : Operand} {key value : Nat} (henv : env.field < 0x100)
    (hk : S.Wide key) (hv : S.Wide value) : S.Keeps (globalWrite env key value) := by
  unfold globalWrite
  cases env <;> exact Site.keeps_abc henv hk hv

theorem globalStore_spec (hw : w.Wf) (line key value : Nat) (env : Operand) :
    Ensures safe (match env with
      | .upvalue u => Emit.setTabUp line u key value
      | other => Emit.setTable line other.field key value) w fun _ w' =>
      w'.used = w.used ∧ w'.mark = w.mark.next ∧
        Loads [] w w' fun S => S.Keeps (globalWrite env key value) →
          S.Writes (globalWrite env key value) w.mark w'.mark := by
  unfold globalWrite
  cases env <;> exact plain_spec hw line _ _ _ _

theorem store_spec (hready : address.Ready w) (hw : w.Wf) (line : Nat) {value : Nat}
    (hv : value < 0x100) :
    Ensures safe (store line value address) w fun _ w' =>
      w'.used = w.used ∧ w'.mark = w.mark.next ∧
        Loads [] w w' fun S => address.Narrow → StoreIs S value w.mark w.mark.next address := by
  have hcode : ∀ {m : LowerM Unit} {r : Request},
      Ensures safe m w (fun _ w' => w'.used = w.used ∧ w'.mark = w.mark.next ∧
        Loads [] w w' fun S => S.Keeps r → S.Writes r w.mark w'.mark) →
      (∀ S : Site, address.Narrow → S.Keeps r) →
      Ensures safe m w fun _ w' => w'.used = w.used ∧ w'.mark = w.mark.next ∧
        Loads [] w w' fun S => address.Narrow → S.Writes r w.mark w.mark.next := by
    intro m r hm hr
    refine hm.mono fun _ w' => ?_
    rintro ⟨hused, hmark, hload⟩
    rw [hmark] at hload
    exact ⟨hused, hmark, hload.mono fun S _ h ha => h (hr S ha)⟩
  cases address with
  | register r =>
    exact hcode (plain_spec hw line _ _ _ _) fun S ha =>
      Site.keeps_abc ha (.of_narrow hv) .zero
  | upvalue u =>
    exact hcode (plain_spec hw line _ _ _ _) fun S ha =>
      Site.keeps_abc hv (.of_narrow ha) .zero
  | field table key =>
    exact hcode (plain_spec hw line _ _ _ _) fun S ha =>
      Site.keeps_abc ha.1 (.of_narrow ha.2) (.of_narrow hv)
  | global env x key =>
    rw [store]
    cases key with
    | some r =>
      rw [globalKey, ensures_pure_bind]
      exact hcode (globalStore_spec hw line r value env) fun S ha =>
        keeps_globalWrite ha.1 (.of_narrow (ha.2 r rfl)) (.of_narrow hv)
    | none =>
      obtain ⟨j, hj, hentry⟩ := hready
      rw [globalKey, bind_assoc]
      refine (constantIndex_spec hw (.string x)).bind fun i w₁ => ?_
      rintro ⟨hused₁, hmark₁, hfirst, -, hload₁⟩
      have hi : i ≤ j := hfirst j _ hentry (beq_self_eq_true x)
      rw [ensures_pure_bind]
      refine (globalStore_spec hload₁.wf line _ value env).mono fun _ w₂ => ?_
      rintro ⟨hused₂, hmark₂, hload₂⟩
      refine ⟨hused₂.trans hused₁, by rw [hmark₂, hmark₁],
        (hload₁.trans hload₂).mono fun S hS hwritten ha => ?_⟩
      obtain ⟨hpool, hcode⟩ := hwritten
      have hreach : i ≤ S.options.constantLimit := by
        rw [hS.options, (hload₁.trans hload₂).options]
        exact Nat.le_trans hi hj
      rw [hmark₂, hmark₁] at hcode
      exact ⟨i, hpool, hreach, hcode (keeps_globalWrite ha.1 (wide_constant hreach)
        (.of_narrow hv))⟩

theorem storeAll_spec (line : Nat) {addresses : List Address} :
    ∀ {w : Workspace} {value : Nat}, w.Wf → (∀ address ∈ addresses, address.Ready w) →
      value + addresses.length ≤ w.used →
      Ensures safe (storeAll line addresses value) w fun _ w' => w'.used = w.used ∧
        Loads [] w w' fun S => (∀ address ∈ addresses, address.Narrow) →
          StoresAre S addresses value w.mark w'.mark := by
  induction addresses with
  | nil => exact fun hw _ _ => ⟨rfl, (Loads.refl hw).mono fun _ _ _ _ => rfl⟩
  | cons address rest ih =>
    intro w value hw hready hvalues
    rw [List.forall_mem_cons] at hready
    rw [List.length_cons] at hvalues
    rw [storeAll]
    refine (store_spec hready.1 hw line (hw.reg_lt (by omega))).bind fun _ w₁ => ?_
    rintro ⟨hused₁, hmark₁, hload₁⟩
    refine (ih hload₁.wf (fun a ha => (hready.2 a ha).continues hload₁.continues) (by omega)).mono
      fun _ w₂ => ?_
    rintro ⟨hused₂, hload₂⟩
    refine ⟨hused₂.trans hused₁, (hload₁.trans hload₂).mono fun S _ ⟨hfirst, hmore⟩ ha => ?_⟩
    rw [List.forall_mem_cons] at ha
    exact ⟨hfirst ha.1, hmark₁ ▸ hmore ha.2⟩

theorem lowerAssign_lowers {targets : List TargetSource} {tps : List TargetPart}
    {values : List Source} {vps : List Part} (hn : safe → targets.length < 0x7fffffff)
    (ht : TargetSources.Meet safe targets tps) (hv : Sources.Meet safe values vps) (line : Nat) :
    Lowers safe (lowerAssign targets values line) (AssignIs tps vps) := by
  intro w hw hrest
  unfold lowerAssign
  refine (setLine_spec hw line).bind fun _ w₁ => ?_
  rintro ⟨hused₁, hmark₁, hload₁⟩
  rw [ensures_usedRegisters_bind]
  refine (addressesOf_spec ht line hload₁.wf).bind fun addresses w₂ => ?_
  rintro ⟨hused₂, hlength, hready₂, hload₂⟩
  rw [ensures_usedRegisters_bind]
  refine (loadAdjusted_spec hn hv hload₂.wf line).bind fun _ w₃ => ?_
  rintro ⟨hused₃, hload₃⟩
  rw [ht.length_eq] at hused₃
  refine (storeAll_spec line hload₃.wf (fun a ha => (hready₂ a ha).continues hload₃.continues)
    (hlength ▸ hused₃)).bind fun _ w₄ => ?_
  rintro ⟨hused₄, hload₄⟩
  have hload₁₄ := ((hload₁.trans hload₂).trans hload₃).trans hload₄
  have hheld : w₄.opened.length ≤ w₁.used := by
    rw [hload₁₄.opened, hused₁]
    exact hw.held
  refine (freeRegistersTo_spec hload₄.wf hheld (by omega)).mono fun _ w₅ => ?_
  rintro ⟨hused₅, hmark₅, hload₅⟩
  refine ⟨[], [], .of_loads hrest (hload₁₄.trans hload₅) (hused₅.trans hused₁)
    fun S hS ⟨⟨⟨⟨_, haddresses⟩, hvalues⟩, hstores⟩, _⟩ _ => ?_⟩
  have hS := hS.back (hload₁₄.trans hload₅).continues
  rw [hload₁.opened, hused₁, hmark₁, hrest.used] at haddresses
  rw [hload₂.opened, hload₁.opened, ht.length_eq] at hvalues
  refine ⟨addresses, w₂.used, w₂.mark, w₃.mark, w₄.mark, haddresses, hvalues,
    hstores (haddresses.narrow hw hS), ?_⟩
  rw [(hload₁₄.trans hload₅).point, hmark₅]

end LuaLowering
