import LuaLowering.Proofs.Lowering.Expression

/-!
# Lowering lists of values, tables and calls

The constructs whose parts are lists. Their values go into registers in a row,
so what has to be known at every place is how many registers are waiting.
-/

namespace LuaLowering

open LowerM

variable {safe : Prop} {w : Workspace} {a n : Nat} {sources : List Source} {parts args : List Part}
  {fields : List FieldSource} {callee : Part} {prepare : Nat → LowerM Int} {method : Option String}

/-! ## Lists -/

/-- Sources write the code of parts, one by one. -/
abbrev Sources.Meet (safe : Prop) : List Source → List Part → Prop :=
  List.Forall₂ (Source.Meets safe)

theorem Sources.Meet.exps (h : Sources.Meet safe sources parts) :
    sources.map (·.exp) = parts.map (·.exp) := by
  induction h with
  | nil => rfl
  | cons hs _ ih => rw [List.map_cons, List.map_cons, hs.exp, ih]

theorem expands_eq (h : Sources.Meet safe sources parts) :
    expands sources = Part.expands parts := by
  have hlast : sources.getLast?.map (·.exp) = parts.getLast?.map (·.exp) := by
    rw [← List.getLast?_map, ← List.getLast?_map, h.exps]
  unfold expands Part.expands
  cases hs : sources.getLast? with
  | none =>
    rw [hs, Option.map_none, eq_comm, Option.map_eq_none_iff] at hlast
    rw [hlast]
  | some s =>
    rw [hs, Option.map_some, eq_comm, Option.map_eq_some_iff] at hlast
    obtain ⟨p, hp, hexp⟩ := hlast
    rw [hp]
    exact congrArg Expr.isMulti hexp.symm

theorem dropWhile_meet (h : Sources.Meet safe sources parts) :
    Sources.Meet safe (sources.dropWhile (·.exp.isNil)) (parts.dropWhile (·.exp.isNil)) := by
  induction h with
  | nil => exact .nil
  | @cons s p sources parts hs hrest ih =>
    rw [List.dropWhile_cons, List.dropWhile_cons, hs.exp]
    split
    · exact ih
    · exact .cons hs hrest

theorem withoutTailNils_meet (h : Sources.Meet safe sources parts) :
    Sources.Meet safe (withoutTailNils sources) (Part.withoutTailNils parts) :=
  List.forall₂_reverse_iff.mpr (dropWhile_meet (List.forall₂_reverse_iff.mpr h))

theorem loadEach_spec {lastWant : Int} (hwant : safe → lastWant < 0x7fffffff)
    (h : Sources.Meet safe sources parts) :
    ∀ {w : Workspace}, w.Wf → Ensures safe (loadEach lastWant sources) w fun _ w' =>
      w'.used = w.used + parts.length ∧ Loads [] w w' fun S => Counts lastWant →
        EachIs S w.opened lastWant parts w.used w.mark w'.mark := by
  induction h with
  | nil =>
    intro w hw
    exact ⟨rfl, (Loads.refl hw).mono fun _ _ _ _ => rfl⟩
  | @cons s p sources parts hs hrest ih =>
    intro w hw
    cases hrest with
    | nil =>
      rw [loadEach]
      refine (takeRegister_spec hw).bind fun r w₁ => ?_
      rintro ⟨rfl, hused₁, hmark₁, hload₁⟩
      refine (hs.load hload₁.wf (by omega) hwant).mono fun _ w₂ => ?_
      rintro ⟨hused₂, hload₂⟩
      refine ⟨hused₂.trans hused₁, (hload₁.trans hload₂).mono fun S _ ⟨hroom, hcode⟩ hcount => ?_⟩
      rw [hload₁.opened, hused₁, hmark₁] at hcode
      exact ⟨hroom, hcode hcount⟩
    | @cons s' p' sources parts hs' hrest' =>
      rw [loadEach]
      · refine hs.load_next hw (fun _ => by omega) fun w₁ hused₁ hload₁ => ?_
        refine (ih hload₁.wf).mono fun _ w₂ => ?_
        rintro ⟨hused₂, hload₂⟩
        rw [hload₁.opened, hused₁] at hload₂
        refine ⟨?_, (hload₁.trans hload₂).mono fun S _ ⟨⟨hroom, hcode⟩, hmore⟩ hcount => ?_⟩
        · simp only [List.length_cons] at hused₂ ⊢
          omega
        · exact ⟨_, hroom, hcode .one, hmore hcount⟩
      · exact fun h => by cases h

/-- How many values were loaded is the number of parts, unless it is open. -/
theorem loadAll_spec (h : Sources.Meet safe sources parts) (hw : w.Wf) :
    Ensures safe (loadAll sources) w fun n w' =>
      (n = allValues ∨ n = parts.length) ∧ w'.used = w.used + parts.length ∧
        Loads [] w w' fun S => AllIs S w.opened parts n w.used w.mark w'.mark := by
  unfold loadAll AllIs
  rw [expands_eq h, h.length_eq]
  split
  · refine (loadEach_spec (fun _ => by decide) h hw).bind fun _ w₁ => ?_
    rintro ⟨hused, hload⟩
    exact ⟨Or.inl rfl, hused, hload.mono fun S _ hcode => ⟨hcode .all, rfl⟩⟩
  · refine (loadEach_spec (fun _ => by decide) h hw).bind fun _ w₁ => ?_
    rintro ⟨hused, hload⟩
    exact ⟨Or.inr rfl, hused, hload.mono fun S _ hcode => ⟨hcode .one, rfl⟩⟩

theorem length_pos_of_expands (h : Part.expands parts = true) : 0 < parts.length := by
  cases parts with
  | nil => cases h
  | cons p rest => exact Nat.succ_pos _

theorem loadNil_spec (hw : w.Wf) (line : Nat) (ha : a < w.used) (hn : 0 < n) :
    Ensures safe (Emit.loadNil line a n) w fun _ w' =>
      w'.used = w.used ∧ w'.mark = w.mark.next ∧ Loads [] w w' fun S => n ≤ 0x200 →
        S.Writes (.abc .loadNil a (n - 1) 0) w.mark w'.mark := by
  unfold Emit.loadNil
  rw [before, if_pos (show 1 ≤ n from hn), ensures_pure_bind]
  refine (plain_spec hw line _ _ _ _).mono fun _ w' h => ⟨h.1, h.2.1, h.2.2.mono ?_⟩
  exact fun S _ hcode hmax => hcode (Site.keeps_abc (hw.reg_lt ha) (fun _ => by omega) .zero)

theorem loadAdjusted_spec (hn : safe → n < 0x7fffffff) (h : Sources.Meet safe sources parts)
    (hw : w.Wf) (line : Nat) :
    Ensures safe (loadAdjusted n sources line) w fun _ w' =>
      w.used + n ≤ w'.used ∧
        Loads [] w w' fun S => AdjustedIs S w.opened n parts w.used w.mark w'.mark := by
  have hkept := withoutTailNils_meet h
  unfold loadAdjusted AdjustedIs
  dsimp only
  generalize withoutTailNils sources = kept at hkept
  generalize Part.withoutTailNils parts = parts at hkept ⊢
  rw [expands_eq hkept, hkept.length_eq]
  split
  · refine (loadEach_spec (fun _ => ?_) hkept hw).mono fun _ w₁ => ?_
    · split <;> decide
    · rintro ⟨hused, hload⟩
      refine ⟨by omega, hload.mono fun S _ hcode => hcode ?_⟩
      split <;> exact ⟨by decide, by decide⟩
  · next hmore =>
    split
    · next hexp =>
      have hpos := length_pos_of_expands hexp
      refine (loadEach_spec (fun hsafe => ?_) hkept hw).bind fun _ w₁ => ?_
      · have hlt := hn hsafe
        omega
      rintro ⟨hused₁, hload₁⟩
      refine (takeRegisters_spec hload₁.wf fun hsafe => ?_).bind fun _ w₂ => ?_
      · have hlt := hn hsafe
        omega
      rintro ⟨-, hused₂, hmark₂, hload₂⟩
      refine ⟨by omega, (hload₁.trans hload₂).mono fun S hS ⟨hcode, hroom⟩ => ?_⟩
      have htotal : w₁.used + (n - parts.length) = w.used + n := by omega
      rw [htotal] at hroom
      have hmax := hS.room_le hload₂.wf hroom
      unfold frameRegisters at hmax
      rw [hmark₂]
      exact ⟨hroom, hcode ⟨by omega, by omega⟩⟩
    · refine (loadEach_spec (fun _ => by decide) hkept hw).bind fun _ w₁ => ?_
      rintro ⟨hused₁, hload₁⟩
      refine (takeRegisters_spec hload₁.wf fun hsafe => ?_).bind fun _ w₂ => ?_
      · have hlt := hn hsafe
        omega
      rintro ⟨rfl, hused₂, hmark₂, hload₂⟩
      refine (loadNil_spec hload₂.wf line (by omega) (by omega)).mono fun _ w₃ => ?_
      rintro ⟨hused₃, -, hload₃⟩
      refine ⟨by omega, ((hload₁.trans hload₂).trans hload₃).mono
        fun S _ ⟨⟨hcode, hroom⟩, hnil⟩ => ?_⟩
      have hmax : w₂.used ≤ 255 := hload₂.wf.used_le
      have hnil := hnil (by omega)
      have htotal : w₁.used + (n - parts.length) = w.used + n := by omega
      rw [htotal] at hroom
      rw [hmark₂, hused₁] at hnil
      exact ⟨hroom, _, hcode .one, hnil⟩

theorem loadConcat_spec {operands : List Source} (h : Sources.Meet safe operands parts) (hw : w.Wf)
    (ha : a < w.used) :
    Ensures safe (loadConcat operands a) w fun _ w' =>
      w'.used = w.used ∧
        Loads [] w w' fun S => ConcatIs S w.opened parts a w.used w.mark w'.mark := by
  unfold loadConcat
  rw [ensures_currentLine_bind, ensures_usedRegisters_bind]
  refine (loadEach_spec (fun _ => by decide) h hw).bind fun _ w₁ => ?_
  rintro ⟨hused₁, hload₁⟩
  rw [ensures_usedRegisters_bind, before, if_pos (by omega), ensures_pure_bind]
  have hheld : w₁.opened.length ≤ w.used := by rw [hload₁.opened]; exact hw.held
  refine (freeRegistersTo_spec hload₁.wf hheld (by omega)).bind fun _ w₂ => ?_
  rintro ⟨hused₂, hmark₂, hload₂⟩
  refine (plain_spec hload₂.wf _ _ a _ _).mono fun _ w₃ => ?_
  rintro ⟨hused₃, -, hload₃⟩
  refine ⟨hused₃.trans hused₂, ((hload₁.trans hload₂).trans hload₃).mono
    fun S _ hS => ?_⟩
  obtain ⟨⟨heach, -⟩, hcode⟩ := hS
  have hlast := hload₁.wf.reg_lt (show w₁.used - 1 < w₁.used by omega)
  have hfirst : S.Wide w.used := .of_narrow (Nat.lt_succ_of_le hw.used_le)
  have hcode := hcode (Site.keeps_abc (hw.reg_lt ha) hfirst (.of_narrow hlast))
  rw [hmark₂, hused₁] at hcode
  exact ⟨_, heach .one, hcode⟩

/-! ## Table constructors -/

/-- The fields of a constructor write the code of parts. -/
inductive FieldSource.Meets (safe : Prop) : FieldSource → FieldPart → Prop
  | item {value : Source} {p : Part} (hv : value.Meets safe p) :
      FieldSource.Meets safe (.item value) (.item p)
  | entry {key value : Source} {kp vp : Part} (hk : key.Meets safe kp) (hv : value.Meets safe vp) :
      FieldSource.Meets safe (.entry key value) (.entry kp vp)

abbrev FieldSources.Meet (safe : Prop) : List FieldSource → List FieldPart → Prop :=
  List.Forall₂ (FieldSource.Meets safe)

theorem items_eq {parts : List FieldPart} (h : FieldSources.Meet safe fields parts) :
    (fields.filter (·.isItem)).length = FieldPart.items parts := by
  unfold FieldPart.items
  induction h with
  | nil => rfl
  | cons hf _ ih =>
    cases hf with
    | item _ => exact congrArg (· + 1) ih
    | entry _ _ => exact ih

/-- The fields of a constructor are stored, and none of the registers above `base` is in use
any more. -/
def FieldSources.Store (safe : Prop) (line a total base : Nat) (fields : List FieldSource)
    (parts : List FieldPart) : Prop :=
  ∀ ⦃w : Workspace⦄ ⦃done : Nat⦄, w.Wf → w.opened.length ≤ base →
    w.used = base + waiting total done → done + FieldPart.items parts = total →
    Ensures safe (storeFields line a total fields done) w fun _ w' => w'.used = base ∧
      Loads [] w w' fun S => FieldsAre S w.opened a total parts done w.used w.mark w'.mark

section

variable {line total base : Nat} {fieldParts : List FieldPart}

theorem FieldSources.Store.item {value : Source} {p : Part} (ha : a < 0x100)
    (hv : value.Meets safe p) (hempty : fields.isEmpty = fieldParts.isEmpty)
    (hrest : FieldSources.Store safe line a total base fields fieldParts) :
    FieldSources.Store safe line a total base (.item value :: fields) (.item p :: fieldParts) := by
  intro w done hw hheld hused hdone
  have hitems : FieldPart.items (.item p :: fieldParts) = FieldPart.items fieldParts + 1 := rfl
  have hwait : waiting total done = done % batchSize := by
    rw [waiting, if_neg (by omega)]
  have hn : (if (done + 1) % batchSize = 0 then batchSize else (done + 1) % batchSize) =
      done % batchSize + 1 := batchOf_succ done
  rw [storeFields, hv.exp, hempty]
  dsimp only
  rw [hn, Nat.add_sub_cancel]
  generalize hspread : (fieldParts.isEmpty && p.exp.isMulti) = spread
  have hcount : Counts (if spread = true then allValues else 1) := by
    cases spread
    · exact .one
    · exact .all
  refine hv.load_next hw (fun _ => hcount.lt) fun w₁ hused₁ hload₁ => ?_
  split
  · next hflush =>
    refine (freeRegisters_spec hload₁.wf (by rw [hload₁.opened]; omega)).bind fun _ w₂ => ?_
    rintro ⟨hused₂, hmark₂, hload₂⟩
    refine (plain_spec hload₂.wf line _ _ _ _).bind fun _ w₃ => ?_
    rintro ⟨hused₃, hmark₃, hload₃⟩
    rw [hmark₃, hmark₂] at hload₃
    have hload₀₃ := (hload₁.trans hload₂).trans hload₃
    have hnone : waiting total (done + 1) = 0 := waiting_of_full hflush
    refine (hrest hload₃.wf (by rw [hload₀₃.opened]; exact hheld) (by omega) (by omega)).mono
      fun _ w₄ => ?_
    rintro ⟨hused₄, hload₄⟩
    have hfree : w₃.used = w.used + 1 - batchOf (done + 1) := by
      rw [batchOf_succ]
      omega
    rw [hload₀₃.opened, hmark₃, hmark₂, hfree] at hload₄
    refine ⟨hused₄, (hload₀₃.trans hload₄).mono
      fun S _ ⟨⟨⟨⟨hroom, hcode⟩, _⟩, hstore⟩, hmore⟩ => ⟨w₁.mark, hroom, ?_, ?_⟩⟩
    · rw [hspread]
      exact hcode hcount
    · have hbatch : S.Wide (if spread = true then 0 else done % batchSize + 1) := by
        refine .of_narrow ?_
        unfold batchSize
        split <;> omega
      rw [if_pos hflush, hspread, batchOf_succ]
      rw [batchOf_succ] at hmore
      exact ⟨hstore (Site.keeps_setList ha hbatch), hmore⟩
  · next hkeep =>
    have hmore : waiting total (done + 1) = done % batchSize + 1 := waiting_of_part hkeep
    refine (hrest hload₁.wf (by rw [hload₁.opened]; exact hheld) (by omega) (by omega)).mono
      fun _ w₂ => ?_
    rintro ⟨hused₂, hload₂⟩
    rw [hload₁.opened, hused₁] at hload₂
    refine ⟨hused₂, (hload₁.trans hload₂).mono
      fun S _ ⟨⟨hroom, hcode⟩, hmore⟩ => ⟨w₁.mark, hroom, ?_, ?_⟩⟩
    · rw [hspread]
      exact hcode hcount
    · rw [if_neg hkeep]
      exact hmore

theorem FieldSources.Store.entry {key value : Source} {kp vp : Part} (ha : a < 0x100)
    (hk : key.Meets safe kp) (hv : value.Meets safe vp)
    (hrest : FieldSources.Store safe line a total base fields fieldParts) :
    FieldSources.Store safe line a total base (.entry key value :: fields)
      (.entry kp vp :: fieldParts) := by
  intro w done hw hheld hused hdone
  have hdone' : done + FieldPart.items fieldParts = total := hdone
  rw [storeFields, ensures_usedRegisters_bind]
  refine (operand_spec hk hw _).bind fun b w₁ => ?_
  rintro ⟨huse₁, hload₁⟩
  have hheld₁ : w₁.opened.length ≤ w.used := by rw [hload₁.opened]; omega
  refine operand_freed_spec hv hload₁.wf _ w.used hheld₁ (by omega)
    fun c w₂ w₃ hused₃ hmark₃ hload₃ => ?_
  refine (plain_spec hload₃.wf line _ _ _ _).bind fun _ w₄ => ?_
  rintro ⟨hused₄, hmark₄, hload₄⟩
  have hload₀₄ := (hload₁.trans hload₃).trans hload₄
  refine (hrest hload₄.wf (by rw [hload₀₄.opened]; exact hheld) (by omega) hdone').mono
    fun _ w₅ => ?_
  rintro ⟨hused₅, hload₅⟩
  have hload₀₅ := hload₀₄.trans hload₅
  refine ⟨hused₅, hload₀₅.mono fun S hS ⟨⟨⟨hkey, hval⟩, hstore⟩, hmore⟩ => ?_⟩
  have hS := hS.back hload₀₅.continues
  rw [hload₁.opened] at hval
  have hstore := hstore (Site.keeps_abc ha (hkey.small hw hS).1 (hval.small hw hS).1)
  rw [hmark₄, hmark₃] at hstore
  rw [hload₀₄.opened, hmark₄, hmark₃, hused₄, hused₃] at hmore
  exact ⟨b, c, _, _, _, _, hkey, hval, hstore, hmore⟩

theorem storeFields_spec (ha : a < 0x100) (h : FieldSources.Meet safe fields fieldParts) :
    FieldSources.Store safe line a total base fields fieldParts := by
  induction h with
  | nil =>
    intro w done hw _ hused hdone
    have hdone' : done = total := hdone
    rw [waiting, if_pos hdone'] at hused
    exact ⟨hused, (Loads.refl hw).mono fun _ _ _ => rfl⟩
  | cons hf hrest ih =>
    cases hf with
    | item hv => exact .item ha hv (by cases hrest <;> rfl) ih
    | entry hk hv => exact .entry ha hk hv ih

end

theorem sizeField_spec (hn : safe → n ≤ SizeHint.maxSize) :
    Ensures safe (sizeField n) w fun x w' => w' = w ∧ x = SizeHint.encode n := by
  unfold sizeField
  split
  · next x hx =>
    refine ⟨rfl, ?_⟩
    rw [SizeHint.encode, hx, Option.getD_some]
  · next hx =>
    rw [ensures_misuse]
    intro hsafe
    rw [SizeHint.encode?_eq_some (hn hsafe)] at hx
    cases hx

theorem loadTable_spec {parts : List FieldPart} (h : FieldSources.Meet safe fields parts)
    (hsize : safe → parts.length ≤ SizeHint.maxSize) (hw : w.Wf) (ha : a < 0x100) :
    Ensures safe (loadTable fields a) w fun _ w' =>
      w'.used = w.used ∧
        Loads [] w w' fun S => TableIs S w.opened parts a w.used w.mark w'.mark := by
  have hitems : FieldPart.items parts ≤ parts.length := List.length_filter_le _ _
  unfold loadTable TableIs Emit.newTable
  dsimp only
  rw [ensures_currentLine_bind, items_eq h, h.length_eq, bind_assoc]
  refine (sizeField_spec fun hsafe => ?_).bind fun x w' => ?_
  · have := hsize hsafe
    omega
  rintro ⟨rfl, rfl⟩
  rw [bind_assoc]
  refine (sizeField_spec fun hsafe => ?_).bind fun y w' => ?_
  · have := hsize hsafe
    omega
  rintro ⟨rfl, rfl⟩
  refine (plain_spec hw _ _ a _ _).bind fun _ w₁ => ?_
  rintro ⟨hused₁, hmark₁, hload₁⟩
  have hwait : waiting (FieldPart.items parts) 0 = 0 := waiting_zero _
  have hheld : w₁.opened.length ≤ w'.used := by rw [hload₁.opened]; exact hw.held
  refine (storeFields_spec ha h hload₁.wf hheld (by omega) (Nat.zero_add _)).mono fun _ w₂ => ?_
  rintro ⟨hused₂, hload₂⟩
  refine ⟨hused₂, (hload₁.trans hload₂).mono fun S _ ⟨hnew, hfields⟩ => ?_⟩
  have hnew := hnew (Site.keeps_abc ha (fun _ => SizeHint.encode_lt _)
    fun _ => SizeHint.encode_lt _)
  rw [hmark₁] at hnew
  rw [hload₁.opened, hmark₁, hused₁] at hfields
  exact ⟨hnew, hfields⟩

/-! ## Calls -/

theorem countField_spec {n : Int} (hn : safe → n < 0x7fffffff) :
    Ensures safe (countField n) w fun x w' => w' = w ∧ x = countCode n := by
  unfold countField countCode
  split
  · exact ⟨rfl, rfl⟩
  · rw [ensures_misuse]
    intro hsafe
    have := hn hsafe
    omega

theorem loadMethod_spec (hw : w.Wf) (line : Nat) (ha : a < 0x100) (method : String) :
    Ensures safe (loadMethod line a method) w fun _ w' =>
      w'.used = w.used + 1 ∧
        Loads [] w w' fun S => MethodIs S w.opened method a w.used w.mark w'.mark := by
  unfold loadMethod
  refine (takeRegister_spec hw).bind fun _ w₁ => ?_
  rintro ⟨-, hused₁, hmark₁, hload₁⟩
  refine (operand_spec (Source.meets_string method) hload₁.wf _).bind fun key w₂ => ?_
  rintro ⟨huse₂, hload₂⟩
  refine (plain_spec hload₂.wf line _ _ _ _).bind fun _ w₃ => ?_
  rintro ⟨hused₃, hmark₃, hload₃⟩
  have hload := (hload₁.trans hload₂).trans hload₃
  have hshape : Loads [] w w₃ fun S => MethodIs S w.opened method a w.used w.mark w₃.mark := by
    refine hload.mono fun S hS ⟨⟨hroom, hkey⟩, hcode⟩ => ?_
    rw [hload₁.opened, hused₁, hmark₁] at hkey
    have hk := (hkey.small hw (hS.back hload.continues)).1
    exact ⟨key, _, _, hroom, hkey, hcode (Site.keeps_abc ha (.of_narrow ha) hk)⟩
  rcases huse₂ with ⟨hsame, hname⟩ | ⟨hfresh, rfl⟩
  · -- a string is no name, so the key is no register that was in use
    cases key with
    | register r =>
      obtain ⟨x, hx⟩ := hname ⟨r, rfl⟩
      cases hx
    | constant k => exact ⟨by omega, hshape⟩
    | upvalue u => exact ⟨by omega, hshape⟩
  · have hheld : w₃.opened.length < w₃.used := by
      have hheld := hw.held
      rw [hload.opened]
      omega
    refine (freeRegister_spec hload₃.wf hheld).mono fun _ w₄ => ?_
    rintro ⟨hused₄, hmark₄, hload₄⟩
    refine ⟨by omega, (hshape.trans hload₄).mono fun S _ h => ?_⟩
    rw [hmark₄]
    exact h.1

/-- A step lays out a call. The number of arguments is one that a field can
hold, because every argument took a register. -/
def Prepares (safe : Prop) (prepare : Nat → LowerM Int) (callee : Part) (method : Option String)
    (args : List Part) : Prop :=
  ∀ {w : Workspace} {a : Nat}, w.Wf → a < w.used → Ensures safe (prepare a) w fun n w' =>
    Counts n ∧ w'.used = w.used ∧
      Loads [] w w' fun S => LaidOutIs S w.opened callee method args a n w.used w.mark w'.mark

/-- The register of a receiver, if the call has one. -/
def receivers (method : Option String) : Nat := if method.isSome then 1 else 0

theorem loadReceiver_spec (hw : w.Wf) (method : Option String) (line : Nat) (ha : a < 0x100) :
    Ensures safe (loadReceiver line a method) w
      fun _ w' => w'.used = w.used + receivers method ∧ Loads [] w w' fun S =>
        match method with
        | some m => MethodIs S w.opened m a w.used w.mark w'.mark ∧ w'.used = w.used + 1
        | none => w'.mark = w.mark ∧ w'.used = w.used := by
  cases method with
  | some m =>
    refine (loadMethod_spec hw line ha m).mono fun _ w₁ => ?_
    rintro ⟨hused, hload⟩
    exact ⟨hused, hload.mono fun S _ h => ⟨h, hused⟩⟩
  | none => exact ⟨rfl, (Loads.refl hw).mono fun _ _ _ => ⟨rfl, rfl⟩⟩

theorem freeReceiver_spec (hw : w.Wf) (method : Option String)
    (hheld : w.opened.length + receivers method ≤ w.used) :
    Ensures safe (freeReceiver method) w fun _ w' => w'.used = w.used - receivers method ∧
        w'.mark = w.mark ∧ Loads [] w w' fun _ => True := by
  cases method with
  | some m => exact freeRegister_spec hw hheld
  | none => exact ⟨rfl, rfl, .refl hw⟩

theorem layOutCall_prepares {callee : Source} {cp : Part} {args : List Source}
    (hc : callee.Meets safe cp) (hargs : Sources.Meet safe args parts) (method : Option String)
    (line : Nat) : Prepares safe (layOutCall callee method args line) cp method parts := by
  intro w a hw ha
  unfold layOutCall
  rw [ensures_currentLine_bind]
  refine (setLine_spec hw line).bind fun _ w₁ => ?_
  rintro ⟨hused₁, hmark₁, hload₁⟩
  refine (hc.load hload₁.wf (by omega) fun _ => by decide).bind fun _ w₂ => ?_
  rintro ⟨hused₂, hload₂⟩
  refine (loadReceiver_spec hload₂.wf method line (hw.reg_lt ha)).bind fun _ w₃ => ?_
  rintro ⟨hused₃, hload₃⟩
  refine (loadAll_spec hargs hload₃.wf).bind fun n w₄ => ?_
  rintro ⟨hn, hused₄, hload₄⟩
  have hload₀₄ := ((hload₁.trans hload₂).trans hload₃).trans hload₄
  have hheld := hw.held
  have hopened₄ := hload₀₄.opened
  rw [hargs.length_eq]
  refine (freeRegisters_spec hload₄.wf (by rw [hopened₄]; omega)).bind fun _ w₅ => ?_
  rintro ⟨hused₅, hmark₅, hload₅⟩
  refine (freeReceiver_spec hload₅.wf method (by rw [hload₅.opened, hopened₄]; omega)).bind
    fun _ w₆ => ?_
  rintro ⟨hused₆, hmark₆, hload₆⟩
  refine (setLine_spec hload₆.wf _).bind fun _ w₇ => ?_
  rintro ⟨hused₇, hmark₇, hload₇⟩
  rw [ensures_pure]
  have hload := ((hload₀₄.trans hload₅).trans hload₆).trans hload₇
  refine ⟨?_, by omega, hload.mono fun S _ ⟨⟨⟨⟨⟨⟨_, hcallee⟩, hmeth⟩, hall⟩, _⟩, _⟩, _⟩ => ?_⟩
  · -- as many arguments as registers at most
    have hmax := hload₄.wf.used_le
    unfold frameRegisters at hmax
    rcases hn with rfl | rfl
    · rw [if_pos rfl]
      exact .all
    · split
      · exact .all
      · constructor <;> split <;> omega
  · rw [hload₁.opened, hused₁, hmark₁] at hcallee
    rw [hload₂.opened, hload₁.opened, hused₂, hused₁] at hmeth
    rw [hload₃.opened, hload₂.opened, hload₁.opened] at hall
    rw [hmark₇, hmark₆, hmark₅]
    exact ⟨_, _, _, n, hcallee .one, hmeth, hall, rfl⟩

theorem finishCall_spec (hp : Prepares safe prepare callee method args) (line : Nat) {want : Int}
    (hwant : safe → want < 0x7fffffff) (hw : w.Wf) (ha : a < w.used) :
    Ensures safe (finishCall prepare line a want) w fun _ w' =>
      w'.used = w.used ∧ Loads [] w w' fun S => Counts want →
        CallIs S w.opened callee method args a want w.used w.mark w'.mark := by
  unfold finishCall Emit.call
  refine (hp hw ha).bind fun n w₁ => ?_
  rintro ⟨hn, hused₁, hload₁⟩
  refine (countField_spec fun _ => hn.lt).bind fun x w' => ?_
  rintro ⟨rfl, rfl⟩
  refine (countField_spec hwant).bind fun y w'' => ?_
  rintro ⟨rfl, rfl⟩
  refine (plain_spec hload₁.wf line _ _ _ _).mono fun _ w₂ => ?_
  rintro ⟨hused₂, -, hload₂⟩
  exact ⟨hused₂.trans hused₁, (hload₁.trans hload₂).mono fun S _ ⟨hlay, hcode⟩ hcount =>
    ⟨n, _, hlay, hcode (Site.keeps_abc (hw.reg_lt ha) hn.wide hcount.wide)⟩⟩

theorem finishTailCall_spec (hp : Prepares safe prepare callee method args) (line : Nat)
    (hw : w.Wf) (ha : a < w.used) :
    Ensures safe (finishTailCall prepare line a) w fun _ w' =>
      w'.used = w.used ∧ ∃ w₁ : Workspace, w'.mark = w₁.mark.next ∧ Loads [] w w' fun S =>
        ∃ n, LaidOutIs S w.opened callee method args a n w.used w.mark w₁.mark ∧
          S.Writes (.abc .tailCall a (countCode n) 0) w₁.mark w'.mark := by
  unfold finishTailCall Emit.tailCall
  refine (hp hw ha).bind fun n w₁ => ?_
  rintro ⟨hn, hused₁, hload₁⟩
  refine (countField_spec fun _ => hn.lt).bind fun x w' => ?_
  rintro ⟨rfl, rfl⟩
  refine (plain_spec hload₁.wf line _ _ _ _).mono fun _ w₂ => ?_
  rintro ⟨hused₂, hmark₂, hload₂⟩
  exact ⟨hused₂.trans hused₁, w', hmark₂, (hload₁.trans hload₂).mono fun S _ ⟨hlay, hcode⟩ =>
    ⟨n, hlay, hcode (Site.keeps_abc (hw.reg_lt ha) hn.wide .zero)⟩⟩

theorem vararg_spec (hw : w.Wf) (line : Nat) (ha : a < 0x100) {n : Int}
    (hn : safe → n < 0x7fffffff) :
    Ensures safe (Emit.vararg line a n) w fun _ w' =>
      w'.used = w.used ∧ w'.mark = w.mark.next ∧ Loads [] w w' fun S => Counts n →
        S.Writes (.abc .vararg a (countCode n) 0) w.mark w'.mark := by
  unfold Emit.vararg
  refine (countField_spec hn).bind fun x w' => ?_
  rintro ⟨rfl, rfl⟩
  refine (plain_spec hw line _ _ _ _).mono fun _ w₁ h => ⟨h.1, h.2.1, h.2.2.mono ?_⟩
  exact fun S _ hcode hn => hcode (Site.keeps_abc ha hn.wide .zero)

theorem ret_spec (hw : w.Wf) (line a : Nat) {n : Int} (hn : Counts n) :
    Ensures safe (Emit.ret line a n) w fun _ w' =>
      w'.used = w.used ∧ w'.mark = w.mark.next ∧ Loads [] w w' fun S => a < 0x100 →
        S.Writes (.abc .ret a (countCode n) 0) w.mark w'.mark := by
  unfold Emit.ret
  refine (countField_spec fun _ => hn.lt).bind fun x w' => ?_
  rintro ⟨rfl, rfl⟩
  refine (plain_spec hw line _ _ _ _).mono fun _ w₁ h => ⟨h.1, h.2.1, h.2.2.mono ?_⟩
  exact fun S _ hcode ha => hcode (Site.keeps_abc ha hn.wide .zero)

end LuaLowering
