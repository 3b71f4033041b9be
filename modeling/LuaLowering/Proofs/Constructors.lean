import LuaLowering.Proofs.Layout.Loads

/-!
# The fields of a table constructor

The items of a table constructor wait in the registers behind the table, and fifty at a time
are stored from there; the last ones may be fewer, or an open number of them. The entries
that stand between them are stored at once.

`storeField` stores one field. `Workspace.FieldsAt` describes the runs of it and their code,
with the positions at which batches of items and at which entries are stored. What a
constructor has as a whole is read off it by induction.
-/

namespace LuaLowering

open LowerM

variable {w w₁ w' : Workspace} {a : Nat} {rest fields : List Field} {k x r pc : Nat}
  {e : Expr} {op : Opcode} {s key value : Source} {want : Int}

/-! ## Fields -/

namespace Field

/-- The items, in order. -/
def items : List Field → List Expr
  | [] => []
  | .item value :: rest => value :: items rest
  | .entry _ _ :: rest => items rest

/-- The entries, in order. -/
def entries : List Field → List (Expr × Expr)
  | [] => []
  | .item _ :: rest => entries rest
  | .entry key value :: rest => (key, value) :: entries rest

/-- The last field is an item that can give any number of values. -/
def spreads (fields : List Field) : Bool :=
  match fields.getLast? with
  | some (.item value) => value.isMulti
  | _ => false

theorem spreads_cons (f : Field) (hrest : rest ≠ []) : spreads (f :: rest) = spreads rest := by
  cases rest with
  | nil => exact absurd rfl hrest
  | cons g others => rw [spreads, spreads, List.getLast?_cons_cons]

theorem items_ne_nil_of_spreads (h : spreads fields = true) : items fields ≠ [] := by
  induction fields with
  | nil => cases h
  | cons f rest ih =>
    cases f with
    | item value => exact List.cons_ne_nil _ _
    | entry key value =>
      by_cases hrest : rest = []
      · subst hrest
        cases h
      · exact ih (spreads_cons _ hrest ▸ h)

/-- An item is given all its values just if it is the last field. -/
theorem spread_iff (value : Expr) (rest : List Field) :
    (rest.isEmpty && value.isMulti) = true ↔
      spreads (.item value :: rest) = true ∧ items rest = [] := by
  cases rest with
  | nil => simp [spreads, items]
  | cons f others =>
    rw [spreads_cons _ (List.cons_ne_nil f others)]
    simp only [List.isEmpty_cons, Bool.false_and, Bool.false_eq_true, false_iff, not_and]
    exact items_ne_nil_of_spreads

/-- How many items there are before a field. -/
def itemsBefore (fields : List Field) (j : Nat) : Nat := (items (fields.take j)).length

/-- How many entries there are before a field. -/
def entriesBefore (fields : List Field) (j : Nat) : Nat := (entries (fields.take j)).length

theorem itemsBefore_item (value : Expr) (rest : List Field) (j : Nat) :
    itemsBefore (.item value :: rest) (j + 1) = itemsBefore rest j + 1 := rfl

theorem itemsBefore_lt {j : Nat} (h : fields[j]? = some (.item e)) :
    itemsBefore fields j < (items fields).length := by
  induction fields generalizing j with
  | nil => cases h
  | cons f rest ih =>
    cases j with
    | zero =>
      obtain rfl := Option.some.inj h
      exact Nat.succ_pos _
    | succ j =>
      have hlt := ih h
      cases f with
      | item => exact Nat.succ_lt_succ hlt
      | entry => exact hlt

theorem filter_sources (fields : List Field) :
    ((sources fields).filter (·.isItem)).length = (items fields).length := by
  induction fields with
  | nil => rw [sources]; rfl
  | cons f rest ih =>
    cases f with
    | item value =>
      rw [sources, items, List.length_cons, ← ih]
      rfl
    | entry key value =>
      rw [sources, items, ← ih]
      rfl

theorem isEmpty_sources (fields : List Field) : (sources fields).isEmpty = fields.isEmpty := by
  cases fields with
  | nil => rw [sources]; rfl
  | cons f rest => cases f <;> rw [sources] <;> rfl

/-- A field with the sources of its parts. -/
def source : Field → FieldSource
  | .item value => .item value.source
  | .entry key value => .entry key.source value.source

theorem sources_cons (f : Field) (rest : List Field) :
    sources (f :: rest) = f.source :: sources rest := by
  cases f <;> rw [sources] <;> rfl

end Field

/-! ## One field -/

/-- Stores one field, which is the last or not, `done` of the `total` items being loaded
already. -/
def storeField (line a total : Nat) (isLast : Bool) (done : Nat) : FieldSource → LowerM Unit
  | .item value => do
    let r ← takeRegister
    let spread := isLast && value.exp.isMulti
    value.load r (if spread then allValues else 1)
    if (done + 1) % batchSize = 0 ∨ done + 1 = total then
      let n := if (done + 1) % batchSize = 0 then batchSize else (done + 1) % batchSize
      freeRegisters n
      Emit.setList line a (if spread then 0 else n) (done / batchSize + 1)
  | .entry key value => do
    let mark ← usedRegisters
    let b ← operand key .registerOrConstant
    let c ← operand value .registerOrConstant
    freeRegistersTo mark
    Emit.setTable line a b.field c.field

theorem storeFields_cons (line a total done : Nat) (f : Field) (rest : List Field) :
    storeFields line a total (Field.sources (f :: rest)) done = (do
      storeField line a total rest.isEmpty done f.source
      storeFields line a total (Field.sources rest) (done + (Field.items [f]).length)) := by
  rw [Field.sources_cons]
  cases f with
  | item value =>
    simp only [Field.source, storeFields, storeField, Field.isEmpty_sources, Field.items,
      List.length_cons, List.length_nil, bind_assoc, Nat.add_sub_cancel]
    by_cases hfull : (done + 1) % batchSize = 0 ∨ done + 1 = total
    · simp only [if_pos hfull, bind_assoc]
    · simp only [if_neg hfull, pure_bind]
  | entry key value => simp [Field.source, storeFields, storeField, Field.items]

/-! ## Stores -/

namespace Workspace

variable {pc b c : Nat}

/-- An instruction with one way on that leaves registers alone. -/
theorem HasAt.region (h : w'.HasAt pc op x b c) (hways : op.ways x c = [(.next, [])])
    (hwrites : op.writes x b c = []) (hbase : ∀ base, op.base? x b = some base → r ≤ base) :
    w'.site.Region r pc (pc + 1) := by
  obtain ⟨i, hi, hop, rfl, rfl, rfl⟩ := h
  rw [← Instruction.ways_eq hop] at hways
  refine .cons hi ?_ (by simp [hways]) (fun t ht => ?_) (.refl r _)
  · intro way hway q hq
    rw [hways, List.mem_singleton] at hway
    subst hway
    rw [Instruction.Changes, Instruction.writes_eq hop, Instruction.base?_eq hop, hwrites] at hq
    rcases hq with ⟨s, hs, -⟩ | ⟨base, hb, hle⟩
    · cases hs
    · exact Nat.le_trans (hbase base hb) hle
  · rw [Instruction.targets, hways, List.map_singleton, List.mem_singleton] at ht
    rw [ht, Instruction.target]
    omega

theorem HasAt.region_setTable (h : w'.HasAt pc .setTable a b c) (r : Nat) :
    w'.site.Region r pc (pc + 1) := h.region rfl rfl nofun

theorem HasAt.region_setList (h : w'.HasAt pc .setList a b c) :
    w'.site.Region (a + 1) pc (pc + 1) := by
  refine h.region rfl rfl fun base hbase => ?_
  obtain ⟨-, hbase⟩ := Option.ite_none_right_eq_some.mp hbase
  exact Nat.le_of_eq (Option.some.inj hbase)

/-- A value is loaded into the next register, which is left alone up to a position. -/
def WaitsAt (w' : Workspace) (s : Source) (r : Nat) (want : Int) (w : Workspace) (pc : Nat) :
    Prop :=
  ∃ v, w'.LoadsNext s r want w v ∧ w'.site.Region (r + 1) v.draft.pc pc

/-- A key and a value are supplied, one after the other and above the table in `a`, and stored
in it at a position. -/
structure StoresAt (w' : Workspace) (a : Nat) (key value : Source) (w : Workspace) (pc : Nat) :
    Prop where
  above : a < w.used
  store : ∃ k v u u', w'.OperandAt key w k u ∧ w'.OperandAt value u v u' ∧ u'.draft.pc = pc ∧
    w'.HasAt pc .setTable a k v

/-- The code of an entry leaves what is in use alone. -/
theorem StoresAt.region (h : w'.StoresAt a key value w pc) :
    w'.site.Region w.used w.draft.pc (pc + 1) := by
  obtain ⟨-, k, v, u, u', hkey, hvalue, rfl, hstore⟩ := h
  exact hkey.region.trans
    ((hvalue.region.mono hkey.used_le).trans (hstore.region_setTable w.used))

theorem HasAt.opcode_eq {op' : Opcode} {x' b' c' : Nat} (h : w'.HasAt pc op x b c)
    (h' : w'.HasAt pc op' x' b' c') : op = op' := by
  obtain ⟨i, hi, hop, -⟩ := h
  obtain ⟨j, hj, hop', -⟩ := h'
  obtain rfl := Option.some.inj (hi.symm.trans hj)
  exact Option.some.inj (hop.symm.trans hop')

/-- The positions between two others where an operation has a first operand, in order. -/
structure Sites (w' : Workspace) (op : Opcode) (a lo hi : Nat) (places : List Nat) : Prop where
  ordered : places.Pairwise (· < ·)
  mem_iff : ∀ pc, pc ∈ places ↔ lo ≤ pc ∧ pc < hi ∧ ∃ b c, w'.HasAt pc op a b c

namespace Sites

variable {op op' : Opcode} {lo mid hi x : Nat} {places : List Nat}

theorem nil (op : Opcode) (a pc : Nat) : w'.Sites op a pc pc [] :=
  ⟨.nil, fun p => ⟨nofun, fun h => by omega⟩⟩

/-- Code in front that has no such instruction. -/
theorem skip (h : w'.Sites op a mid hi places) (hle : lo ≤ mid)
    (hnone : ∀ pc b c, lo ≤ pc → pc < mid → ¬ w'.HasAt pc op a b c) :
    w'.Sites op a lo hi places := by
  refine ⟨h.ordered, fun pc => (h.mem_iff pc).trans ⟨fun hpc => ⟨by omega, hpc.2⟩, ?_⟩⟩
  rintro ⟨hge, hlt, b, c, hat⟩
  refine ⟨Nat.not_lt.mp fun hin => hnone pc b c hge hin hat, hlt, b, c, hat⟩

/-- Another instruction in front. -/
theorem other (h : w'.Sites op a (pc + 1) hi places) (hat : w'.HasAt pc op' x b c)
    (hne : op' ≠ op) : w'.Sites op a pc hi places := by
  refine h.skip (Nat.le_succ pc) fun q b' c' hge hlt hq => ?_
  obtain rfl : q = pc := by omega
  exact hne (hat.opcode_eq hq)

/-- One more of them in front. -/
theorem cons (h : w'.Sites op a (pc + 1) hi places) (hat : w'.HasAt pc op a b c) (hlt : pc < hi) :
    w'.Sites op a pc hi (pc :: places) := by
  refine ⟨.cons (fun q hq => ((h.mem_iff q).mp hq).1) h.ordered, fun q => ?_⟩
  rw [List.mem_cons, h.mem_iff]
  constructor
  · rintro (rfl | ⟨hge, hq⟩)
    · exact ⟨le_rfl, hlt, b, c, hat⟩
    · exact ⟨by omega, hq⟩
  · rintro ⟨hge, hq⟩
    rcases Nat.eq_or_lt_of_le hge with rfl | hgt
    · exact Or.inl rfl
    · exact Or.inr ⟨hgt, hq⟩

theorem load {u v : Workspace} (h : w'.Sites op a v.draft.pc hi places)
    (hload : w'.LoadsAt s r want u v) (hop : op.isSilent = false) (hr : a < r) :
    w'.Sites op a u.draft.pc hi places := by
  refine h.skip hload.region.le fun pc b c hge hlt hat => ?_
  rcases hload.first pc op a b c hge hlt hat with hsilent | hle
  · exact absurd hsilent (by simp [hop])
  · omega

theorem loadNext (h : w'.Sites op a w₁.draft.pc hi places)
    (hload : w'.LoadsNext s r want w w₁) (hop : op.isSilent = false) (hr : a < r) :
    w'.Sites op a w.draft.pc hi places := by
  obtain ⟨u, htake, hload⟩ := hload
  have hpc : u.draft.pc = w.draft.pc := (takeRegister_writes.of_ok htake).1.pc
  exact hpc ▸ h.load hload hop hr

theorem operand {field : Nat} (h : w'.Sites op a w₁.draft.pc hi places)
    (hoperand : w'.OperandAt s w field w₁) (hop : op.isSilent = false) (hused : a < w.used) :
    w'.Sites op a w.draft.pc hi places := by
  cases hoperand with
  | constant _ _ _ _ _ hpc => exact hpc ▸ h
  | name _ _ _ _ hpc => exact hpc ▸ h
  | value _ hpc hload => exact hpc ▸ h.load hload hop hused

end Sites

end Workspace

/-! ## The code of fields -/

namespace Workspace

/-- Fields of a table in `a` were stored, one in each of the states, `done` of its `total` items
being loaded already. The two lists have the positions at which batches and at which entries
are stored. -/
inductive FieldsAt (w' : Workspace) (line a total : Nat) :
    List Field → Nat → (Nat → Workspace) → List Nat → List Nat → Prop
  | nil (done : Nat) (states : Nat → Workspace) : FieldsAt w' line a total [] done states [] []
  | entry {key value : Expr} {rest : List Field} {done pc : Nat} {states : Nat → Workspace}
      {batches stores : List Nat}
      (hrun : storeField line a total rest.isEmpty done (Field.entry key value).source (states 0) =
        .ok () (states 1))
      (hused : (states 0).used = a + 1 + waiting total done)
      (hstore : w'.StoresAt a key.source value.source (states 0) pc)
      (hpc : (states 1).draft.pc = pc + 1)
      (hrest : FieldsAt w' line a total rest done (fun j => states (j + 1)) batches stores) :
      FieldsAt w' line a total (.entry key value :: rest) done states batches (pc :: stores)
  | item {value : Expr} {rest : List Field} {done : Nat} {states : Nat → Workspace}
      {batches stores : List Nat}
      (hrun : storeField line a total rest.isEmpty done (Field.item value).source (states 0) =
        .ok () (states 1))
      (hload : w'.LoadsNext value.source (a + 1 + done % batchSize)
        (if rest.isEmpty && value.isMulti then allValues else 1) (states 0) (states 1))
      (hmore : ¬ ((done + 1) % batchSize = 0 ∨ done + 1 = total))
      (hrest : FieldsAt w' line a total rest (done + 1) (fun j => states (j + 1)) batches stores) :
      FieldsAt w' line a total (.item value :: rest) done states batches stores
  | batch {value : Expr} {rest : List Field} {v : Workspace} {done : Nat}
      {states : Nat → Workspace} {batches stores : List Nat}
      (hrun : storeField line a total rest.isEmpty done (Field.item value).source (states 0) =
        .ok () (states 1))
      (hload : w'.LoadsNext value.source (a + 1 + done % batchSize)
        (if rest.isEmpty && value.isMulti then allValues else 1) (states 0) v)
      (hfull : (done + 1) % batchSize = 0 ∨ done + 1 = total)
      (hstore : w'.HasAt v.draft.pc .setList a
        (if rest.isEmpty && value.isMulti then 0 else done % batchSize + 1) (done / batchSize + 1))
      (hpc : (states 1).draft.pc = v.draft.pc + 1)
      (hrest : FieldsAt w' line a total rest (done + 1) (fun j => states (j + 1)) batches stores) :
      FieldsAt w' line a total (.item value :: rest) done states (v.draft.pc :: batches) stores

end Workspace

section

variable {line total done : Nat} {isLast : Bool}

theorem storeField_entry (hw : w.InFields) (hused : a < w.used) (ha : a < 0x100)
    (key value : Expr) :
    Ensures False (storeField line a total isLast done (Field.entry key value).source) w fun _ w₁ =>
      w.Straight a w₁ ∧ w₁.used = w.used ∧ ∀ w', w₁.Straight a w' → ∃ pc,
        w'.StoresAt a key.source value.source w pc ∧ w₁.draft.pc = pc + 1 := by
  have hk := Expr.lower_tidy key
  have hv := Expr.lower_tidy value
  rw [Field.source, storeField, ensures_usedRegisters_bind]
  refine ((operand_finds _ .registerOrConstant).and (ensures_run _ w)).bind fun b w₁ h₁ => ?_
  obtain ⟨hkey, hrunKey⟩ := h₁
  obtain ⟨h₁, hused₁⟩ := hkey.straight hk (a := a) (by omega)
  refine ((operand_finds _ .registerOrConstant).and (ensures_run _ w₁)).bind fun c w₂ h₂ => ?_
  obtain ⟨hvalue, hrunValue⟩ := h₂
  obtain ⟨h₂, -⟩ := hvalue.straight hv (a := a) (by omega)
  refine (freeRegistersTo_writes _).bind fun _ w₃ h₃ => ?_
  obtain ⟨hfree, hused₃, -⟩ := h₃
  refine ((plain_writes line .setTable a b.field c.field).and
    (plain_straight line b.field rfl)).mono fun _ w₄ h₄ => ?_
  obtain ⟨⟨hwrites, hused₄⟩, hset, -⟩ := h₄
  have hstore : w₂.Straight a w₄ := (hfree.straight_nil a).trans hset
  refine ⟨h₁.trans (h₂.trans hstore), by omega, fun w' hlater => ?_⟩
  have hkeyAt := hkey.operandAt hrunKey hk hw (h₂.trans (hstore.trans hlater))
  have hvalueAt := hvalue.operandAt hrunValue hv (hw.straight h₁) (hstore.trans hlater)
  have hstoreAt := hwrites.hasAt hlater.toAppends
  rw [Nat.mod_eq_of_lt ha, hfree.pc] at hstoreAt
  refine ⟨w₂.draft.pc, ⟨hused, _, _, w₁, w₂, hkeyAt, hvalueAt, rfl, hstoreAt⟩, ?_⟩
  exact hwrites.pc.trans (congrArg (· + 1) hfree.pc)

/-- An item is loaded, and stored with its batch once that is full or no item is left. -/
theorem storeField_item (hw : w.InFields) (hused : w.used = a + 1 + done % batchSize)
    (ha : a < 0x100) (hdone : done < 511 * batchSize) (value : Expr) :
    Ensures False (storeField line a total isLast done (Field.item value).source) w fun _ w₁ =>
      w.Straight a w₁ ∧ w₁.used = a + 1 + waiting total (done + 1) ∧ ∀ w', w₁.Straight a w' →
        ∃ v, w'.LoadsNext value.source (a + 1 + done % batchSize)
            (if isLast && value.isMulti then allValues else 1) w v ∧
          if (done + 1) % batchSize = 0 ∨ done + 1 = total then
            w'.HasAt v.draft.pc .setList a
              (if isLast && value.isMulti then 0 else done % batchSize + 1)
              (done / batchSize + 1) ∧ w₁.draft.pc = v.draft.pc + 1
          else v = w₁ := by
  have hlimit := hw.limit
  have hv : value.source.Tidy := Expr.lower_tidy value
  have hn : (if (done + 1) % batchSize = 0 then batchSize else (done + 1) % batchSize) =
      done % batchSize + 1 := batchOf_succ done
  have hexp : value.source.exp = value := rfl
  rw [Field.source, storeField]
  dsimp only
  rw [← bind_assoc, hn, hexp]
  refine (takeAndLoad_loadsNext hv hw.limit _).bind fun _ w₁ h₁ => ?_
  obtain ⟨hstraight, hused₁, hroom, hloads⟩ := h₁
  have h₁ : w.Straight a w₁ := hstraight.mono (by omega) (by omega)
  split
  · next hfull =>
    refine (freeRegisters_writes _).bind fun _ w₂ h₂ => ?_
    obtain ⟨hfree, hused₂⟩ := h₂
    refine ((plain_writes line .setList a _ _).and (plain_straight line _ rfl)).mono
      fun _ w₃ h₃ => ?_
    obtain ⟨⟨hwrites, hused₃⟩, hset, -⟩ := h₃
    have hstore : w₁.Straight a w₃ := (hfree.straight_nil a).trans hset
    rw [waiting_of_full hfull]
    refine ⟨h₁.trans hstore, by omega, fun w' hlater => ?_⟩
    have hload := hloads w' (hstore.trans hlater).toAppends
    have hcount : (if isLast && value.isMulti then 0 else done % batchSize + 1) < 0x200 := by
      unfold batchSize
      split <;> omega
    have hnumber : done / batchSize + 1 < 0x200 := by
      unfold batchSize at *
      omega
    have hstoreAt := hwrites.hasAt hlater.toAppends
    rw [Nat.mod_eq_of_lt ha, hfree.pc, Nat.mod_eq_of_lt hcount, Nat.mod_eq_of_lt hnumber]
      at hstoreAt
    refine ⟨w₁, hused ▸ hload, hstoreAt, ?_⟩
    exact hwrites.pc.trans (congrArg (· + 1) hfree.pc)
  · next hmore =>
    rw [waiting_of_part hmore]
    refine ⟨h₁, by omega, fun w' hlater => ⟨w₁, hused ▸ hloads w' hlater.toAppends, rfl⟩⟩

end

theorem storeFields_fieldsAt (line : Nat) {total : Nat} (hbatches : total ≤ 511 * batchSize)
    (ha : a < 0x100) (fields : List Field) :
    ∀ (done : Nat) (w : Workspace), done + (Field.items fields).length = total → w.InFields →
      w.used = a + 1 + waiting total done →
      Ensures False (storeFields line a total (Field.sources fields) done) w fun _ w₁ =>
        w.Straight a w₁ ∧ ∀ w', w₁.Straight a w' → ∃ states batches stores, states 0 = w ∧
          states fields.length = w₁ ∧
            w'.FieldsAt line a total fields done states batches stores := by
  induction fields with
  | nil =>
    intro done w _ _ _
    rw [Field.sources]
    exact ⟨.refl w a, fun w' _ => ⟨fun _ => w, [], [], rfl, rfl, .nil done _⟩⟩
  | cons f rest ih =>
    intro done w htotal hw hused
    rw [storeFields_cons]
    cases f with
    | entry key value =>
      refine ((storeField_entry hw (by omega) ha key value).and (ensures_run _ w)).bind
        fun _ w₁ h₁ => ?_
      obtain ⟨⟨hfirst, hused₁, hstore⟩, hrun⟩ := h₁
      refine (ih done w₁ htotal (hw.straight hfirst) (by omega)).mono fun _ w₂ h₂ => ?_
      obtain ⟨hothers, hat⟩ := h₂
      refine ⟨hfirst.trans hothers, fun w' hlater => ?_⟩
      obtain ⟨pc, hstoreAt, hpc⟩ := hstore w' (hothers.trans hlater)
      obtain ⟨states, batches, stores, rfl, hlast, hrest⟩ := hat w' hlater
      exact ⟨w.before states, batches, _, rfl, hlast, .entry hrun hused hstoreAt hpc hrest⟩
    | item value =>
      rw [Field.items, List.length_cons] at htotal
      have hwait : waiting total done = done % batchSize := if_neg (by omega)
      rw [hwait] at hused
      refine ((storeField_item hw hused ha (by omega) value).and (ensures_run _ w)).bind
        fun _ w₁ h₁ => ?_
      obtain ⟨⟨hfirst, hused₁, hstore⟩, hrun⟩ := h₁
      refine (ih (done + 1) w₁ (by omega) (hw.straight hfirst) hused₁).mono fun _ w₂ h₂ => ?_
      obtain ⟨hothers, hat⟩ := h₂
      refine ⟨hfirst.trans hothers, fun w' hlater => ?_⟩
      obtain ⟨v, hload, hthen⟩ := hstore w' (hothers.trans hlater)
      obtain ⟨states, batches, stores, rfl, hlast, hrest⟩ := hat w' hlater
      split at hthen
      · next hfull =>
        obtain ⟨hstoreAt, hpc⟩ := hthen
        exact ⟨w.before states, _, stores, rfl, hlast,
          .batch hrun hload hfull hstoreAt hpc hrest⟩
      · next hmore =>
        subst hthen
        exact ⟨w.before states, batches, stores, rfl, hlast, .item hrun hload hmore hrest⟩

/-! ## What the code of fields has -/

namespace Workspace.FieldsAt

variable {line total done j : Nat} {states : Nat → Workspace} {batches stores : List Nat}

section

variable (h : w'.FieldsAt line a total fields done states batches stores)

include h

/-- Each field is stored in the state that the one before it left. -/
theorem step {f : Field} (hf : fields[j]? = some f) :
    storeField line a total (j + 1 == fields.length) (done + Field.itemsBefore fields j) f.source
      (states j) = .ok () (states (j + 1)) := by
  have hfirst : ∀ (g : Field) (rest : List Field), (0 + 1 == (g :: rest).length) = rest.isEmpty :=
    fun g rest => by cases rest <;> rfl
  have hnext : ∀ (g : Field) (rest : List Field) (j : Nat),
      (j + 1 + 1 == (g :: rest).length) = (j + 1 == rest.length) := fun g rest j => by simp
  induction h generalizing j with
  | nil => cases hf
  | entry hrun _ _ _ _ ih =>
    cases j with
    | zero =>
      obtain rfl := Option.some.inj hf
      rw [hfirst]
      exact hrun
    | succ j =>
      rw [hnext]
      exact ih hf
  | item hrun _ _ _ ih =>
    cases j with
    | zero =>
      obtain rfl := Option.some.inj hf
      rw [hfirst]
      exact hrun
    | succ j =>
      rw [hnext, Field.itemsBefore_item, ← Nat.add_assoc, Nat.add_right_comm]
      exact ih hf
  | batch hrun _ _ _ _ _ ih =>
    cases j with
    | zero =>
      obtain rfl := Option.some.inj hf
      rw [hfirst]
      exact hrun
    | succ j =>
      rw [hnext, Field.itemsBefore_item, ← Nat.add_assoc, Nat.add_right_comm]
      exact ih hf

theorem region :
    w'.site.Region (a + 1) (states 0).draft.pc (states fields.length).draft.pc := by
  induction h with
  | nil => exact .refl _ _
  | entry _ hused hstore hpc _ ih =>
    have hentry := hstore.region
    rw [← hpc] at hentry
    exact (hentry.mono (by omega)).trans ih
  | item _ hload _ _ ih => exact (hload.region.mono (by omega)).trans ih
  | batch _ hload _ hstore hpc _ ih =>
    have hbatch := hstore.region_setList
    rw [← hpc] at hbatch
    exact (hload.region.mono (by omega)).trans (hbatch.trans ih)

/-- What waits is left alone up to the position where the next batch is stored. -/
theorem region_batch (htotal : done + (Field.items fields).length = total) (hdone : done < total) :
    ∃ pc, batches[0]? = some pc ∧
      w'.site.Region (a + 1 + done % batchSize) (states 0).draft.pc pc := by
  induction h with
  | nil =>
    simp only [Field.items, List.length_nil] at htotal
    omega
  | entry _ hused hstore hpc _ ih =>
    obtain ⟨pc, hbatch, hregion⟩ := ih htotal hdone
    have hentry := hstore.region
    rw [hused, waiting, if_neg (by omega), ← hpc] at hentry
    exact ⟨pc, hbatch, hentry.trans hregion⟩
  | item _ hload hmore _ ih =>
    rw [Field.items, List.length_cons] at htotal
    obtain ⟨pc, hpc, hregion⟩ := ih (by omega) (by omega)
    refine ⟨pc, hpc, hload.region.trans (hregion.mono ?_)⟩
    unfold batchSize at *
    omega
  | batch _ hload => exact ⟨_, rfl, hload.region⟩

/-- The batches that are left. -/
theorem length_batches (htotal : done + (Field.items fields).length = total) :
    batches.length = if done = total then 0 else (total + 49) / 50 - done / 50 := by
  induction h with
  | nil =>
    rw [if_pos]
    · rfl
    · simpa [Field.items] using htotal
  | entry _ _ _ _ _ ih => exact ih htotal
  | item _ _ hmore _ ih =>
    rw [Field.items, List.length_cons] at htotal
    rw [ih (by omega)]
    unfold batchSize at hmore
    split <;> split <;> omega
  | batch _ _ hfull _ _ _ ih =>
    rw [Field.items, List.length_cons] at htotal
    rw [List.length_cons, ih (by omega)]
    unfold batchSize at hfull
    split <;> split <;> omega

theorem sites_batches :
    w'.Sites .setList a (states 0).draft.pc (states fields.length).draft.pc batches := by
  induction h with
  | nil done states => exact .nil _ _ _
  | entry _ _ hstore hpc _ ih =>
    obtain ⟨hused, k, v, u, u', hkey, hvalue, rfl, hstore⟩ := hstore
    have hnext := hkey.used_le
    simp only [Nat.zero_add, hpc] at ih
    exact ((ih.other hstore nofun).operand hvalue rfl (by omega)).operand hkey rfl hused
  | item _ hload _ _ ih => exact ih.loadNext hload rfl (by omega)
  | batch _ hload _ hstore hpc hrest ih =>
    have hle := hrest.region.le
    simp only [Nat.zero_add, hpc] at ih hle
    exact (ih.cons hstore hle).loadNext hload rfl (by omega)

theorem sites_stores :
    w'.Sites .setTable a (states 0).draft.pc (states fields.length).draft.pc stores := by
  induction h with
  | nil done states => exact .nil _ _ _
  | entry _ _ hstore hpc hrest ih =>
    obtain ⟨hused, k, v, u, u', hkey, hvalue, rfl, hstore⟩ := hstore
    have hnext := hkey.used_le
    have hle := hrest.region.le
    simp only [Nat.zero_add, hpc] at ih hle
    exact ((ih.cons hstore hle).operand hvalue rfl (by omega)).operand hkey rfl hused
  | item _ hload _ _ ih => exact ih.loadNext hload rfl (by omega)
  | batch _ hload _ hstore hpc _ ih =>
    simp only [Nat.zero_add, hpc] at ih
    exact (ih.other hstore nofun).loadNext hload rfl (by omega)

theorem length_stores : stores.length = (Field.entries fields).length := by
  induction h with
  | nil => rfl
  | entry _ _ _ _ _ ih => rw [Field.entries, List.length_cons, List.length_cons, ih]
  | item _ _ _ _ ih => exact ih
  | batch _ _ _ _ _ _ ih => exact ih

theorem ne_nil_of_batch (hpc : batches[k]? = some pc) : fields ≠ [] := by
  rintro rfl
  cases h
  cases hpc

/-- What the instruction for a batch says: how many items it has, if that is known, and the
number of the batch. -/
theorem batch_hasAt (htotal : done + (Field.items fields).length = total)
    (hpc : batches[k]? = some pc) :
    w'.HasAt pc .setList a
      (if Field.spreads fields = true ∧ done / 50 + k + 1 = (total + 49) / 50 then 0
        else min 50 (total - 50 * (done / 50 + k))) (done / 50 + k + 1) := by
  induction h generalizing k with
  | nil => cases hpc
  | entry _ _ _ _ hrest ih =>
    rw [Field.spreads_cons _ (hrest.ne_nil_of_batch hpc)]
    exact ih htotal hpc
  | @item _ _ done _ _ _ _ _ hmore hrest ih =>
    rw [Field.items, List.length_cons] at htotal
    have hat := ih (by omega) hpc
    have hsame : (done + 1) / 50 = done / 50 := by
      unfold batchSize at hmore
      omega
    rw [Field.spreads_cons _ (hrest.ne_nil_of_batch hpc)]
    rwa [hsame] at hat
  | @batch value rest _ done _ batches _ _ _ hfull hstore _ hrest ih =>
    rw [Field.items, List.length_cons] at htotal
    cases k with
    | zero =>
      obtain rfl := Option.some.inj hpc
      -- whether this is the last batch is not seen from its size, but from what is left
      have hlast : Field.spreads (.item value :: rest) = true ∧
          done / 50 + 0 + 1 = (total + 49) / 50 ↔ (rest.isEmpty && value.isMulti) = true := by
        rw [Field.spread_iff, ← List.length_eq_zero_iff]
        unfold batchSize at hfull
        exact and_congr_right fun _ => by omega
      have hcount : done % batchSize + 1 = min 50 (total - 50 * (done / 50 + 0)) := by
        unfold batchSize at *
        omega
      rw [hcount] at hstore
      simp only [hlast]
      exact hstore
    | succ k =>
      have hlength := hrest.length_batches (by omega)
      have hlt := (List.getElem?_eq_some_iff.mp hpc).1
      have hnext : (done + 1) / 50 = done / 50 + 1 := by
        unfold batchSize at hfull
        rw [List.length_cons] at hlt
        split at hlength <;> omega
      have hat := ih (by omega) hpc
      rw [Field.spreads_cons _ (hrest.ne_nil_of_batch (k := k) hpc)]
      rwa [hnext, Nat.add_right_comm _ 1 k] at hat

theorem item_waitsAt (htotal : done + (Field.items fields).length = total)
    (he : fields[j]? = some (.item e)) (hk : Field.itemsBefore fields j = k) :
    ∃ pc, batches[(done + k) / 50 - done / 50]? = some pc ∧
      w'.WaitsAt e.source (a + 1 + (done + k) % 50)
        (if j + 1 = fields.length ∧ e.isMulti = true then allValues else 1) (states j) pc := by
  have hfirst : ∀ (rest : List Field) (e : Expr), 0 + 1 = (Field.item e :: rest).length ∧
      e.isMulti = true ↔ (rest.isEmpty && e.isMulti) = true := fun rest e => by
    cases rest <;> simp
  induction h generalizing j k with
  | nil => cases he
  | entry _ _ _ _ _ ih =>
    cases j with
    | zero => cases he
    | succ j =>
      obtain ⟨pc, hpc, hwaits⟩ := ih htotal he hk
      simp only [List.length_cons, Nat.add_right_cancel_iff]
      exact ⟨pc, hpc, hwaits⟩
  | @item _ _ done _ _ _ _ hload hmore hrest ih =>
    rw [Field.items, List.length_cons] at htotal
    unfold batchSize at hload hmore
    cases j with
    | zero =>
      obtain rfl := Field.item.inj (Option.some.inj he)
      obtain rfl : 0 = k := hk
      obtain ⟨pc, hpc, hregion⟩ := hrest.region_batch (by omega) (by omega)
      unfold batchSize at hregion
      simp only [hfirst]
      exact ⟨pc, by simpa using hpc, _, hload, hregion.mono (by omega)⟩
    | succ j =>
      obtain rfl : Field.itemsBefore _ j + 1 = k := hk
      obtain ⟨pc, hpc, hwaits⟩ := ih (by omega) he rfl
      have hsame : (done + 1) / 50 = done / 50 := by omega
      simp only [List.length_cons, Nat.add_right_cancel_iff]
      rw [← Nat.add_assoc, Nat.add_right_comm]
      rw [hsame] at hpc
      exact ⟨pc, hpc, hwaits⟩
  | @batch _ rest v done _ batches _ _ hload hfull hstore _ hrest ih =>
    rw [Field.items, List.length_cons] at htotal
    unfold batchSize at hload hfull
    cases j with
    | zero =>
      obtain rfl := Field.item.inj (Option.some.inj he)
      obtain rfl : 0 = k := hk
      simp only [hfirst]
      exact ⟨v.draft.pc, by simp, v, hload, .refl _ _⟩
    | succ j =>
      obtain rfl : Field.itemsBefore _ j + 1 = k := hk
      obtain ⟨pc, hpc, hwaits⟩ := ih (by omega) he rfl
      have hlt : Field.itemsBefore rest j < (Field.items rest).length := Field.itemsBefore_lt he
      -- there are more items, so the batch was full and this one is in a later batch
      have hindex : (done + 1 + Field.itemsBefore rest j) / 50 - done / 50 =
          (done + 1 + Field.itemsBefore rest j) / 50 - (done + 1) / 50 + 1 := by omega
      simp only [List.length_cons, Nat.add_right_cancel_iff]
      rw [← Nat.add_assoc, Nat.add_right_comm, hindex, List.getElem?_cons_succ]
      exact ⟨pc, hpc, hwaits⟩

theorem entry_storesAt {key value : Expr} (he : fields[j]? = some (.entry key value)) :
    ∃ pc, stores[Field.entriesBefore fields j]? = some pc ∧
      w'.StoresAt a key.source value.source (states j) pc := by
  induction h generalizing j with
  | nil => cases he
  | entry _ _ hstore _ _ ih =>
    cases j with
    | zero =>
      obtain ⟨rfl, rfl⟩ := Field.entry.inj (Option.some.inj he)
      exact ⟨_, rfl, hstore⟩
    | succ j => exact ih he
  | item _ _ _ _ ih =>
    cases j with
    | zero => cases he
    | succ j => exact ih he
  | batch _ _ _ _ _ _ ih =>
    cases j with
    | zero => cases he
    | succ j => exact ih he

end

end Workspace.FieldsAt

/-! ## Constructors -/

/-- The instruction for a batch stores a register under an integer key. -/
def Workspace.AssignsAt (w' : Workspace) (pc a r key : Nat) : Prop :=
  ∃ b c, w'.HasAt pc .setList a b c ∧ a < r ∧ (b = 0 ∨ r ≤ a + b) ∧ key = (c - 1) * 50 + (r - a)

/-- A table is made in `a` with all its fields, which are stored one after the other: batches and
entries at the positions listed and nowhere else. Each item waits for its batch and goes to its
own index, and the batches have the items that there are. -/
structure Field.TableAt (fields : List Field) (a : Nat) (w w' : Workspace)
    (states : Nat → Workspace) (batches stores : List Nat) : Prop where
  made : ∃ b c, w'.HasAt w.draft.pc .newTable a b c
  start : Emit.newTable w.draft.line a (items fields).length
    (fields.length - (items fields).length) w = .ok () (states 0)
  step : ∀ (j : Nat) (f : Field), fields[j]? = some f →
    storeField w.draft.line a (items fields).length (j + 1 == fields.length) (itemsBefore fields j)
      f.source (states j) = .ok () (states (j + 1))
  stop : states fields.length = w'
  above : w'.site.Region (a + 1) (w.draft.pc + 1) w'.draft.pc
  item : ∀ (j k : Nat) (e : Expr), fields[j]? = some (.item e) → itemsBefore fields j = k →
    ∃ pc, batches[k / 50]? = some pc ∧ w'.WaitsAt e.source (a + 1 + k % 50)
      (if j + 1 = fields.length ∧ e.isMulti = true then allValues else 1) (states j) pc ∧
    w'.AssignsAt pc a (a + 1 + k % 50) (k + 1)
  batch : ∀ j pc : Nat, batches[j]? = some pc → w'.HasAt pc .setList a
    (if spreads fields = true ∧ j + 1 = batches.length then 0
      else min 50 ((items fields).length - 50 * j)) (j + 1)
  batchCount : batches.length = ((items fields).length + 49) / 50
  batchSites : w'.Sites .setList a w.draft.pc w'.draft.pc batches
  entry : ∀ (j : Nat) (key value : Expr), fields[j]? = some (.entry key value) →
    ∃ pc, stores[entriesBefore fields j]? = some pc ∧
      w'.StoresAt a key.source value.source (states j) pc
  entryCount : stores.length = (entries fields).length
  entrySites : w'.Sites .setTable a w.draft.pc w'.draft.pc stores

/-- Such code stores the fields of a table that is made in front of it. -/
theorem Workspace.FieldsAt.tableAt {b c : Nat} {states : Nat → Workspace}
    {batches stores : List Nat}
    (h : w'.FieldsAt w.draft.line a (Field.items fields).length fields 0 states batches stores)
    (hstart : Emit.newTable w.draft.line a (Field.items fields).length
      (fields.length - (Field.items fields).length) w = .ok () (states 0))
    (hpc : (states 0).draft.pc = w.draft.pc + 1) (hstop : states fields.length = w')
    (hmade : w'.HasAt w.draft.pc .newTable a b c) :
    Field.TableAt fields a w w' states batches stores := by
  have hcount : batches.length = ((Field.items fields).length + 49) / 50 := by
    rw [h.length_batches (Nat.zero_add _)]
    split <;> omega
  have hbatch : ∀ j pc : Nat, batches[j]? = some pc → w'.HasAt pc .setList a
      (if Field.spreads fields = true ∧ j + 1 = batches.length then 0
        else min 50 ((Field.items fields).length - 50 * j)) (j + 1) := by
    intro j pc hpc
    have hat := h.batch_hasAt (Nat.zero_add _) hpc
    rwa [Nat.zero_div, Nat.zero_add, ← hcount] at hat
  have hregion := h.region
  have hbatches := h.sites_batches
  have hstores := h.sites_stores
  rw [hpc, hstop] at hregion hbatches hstores
  refine ⟨⟨b, c, hmade⟩, hstart, fun j f hf => ?_, hstop, hregion, fun j k e he hk => ?_, hbatch,
    hcount, hbatches.other hmade nofun, fun j key value he => h.entry_storesAt he,
    h.length_stores, hstores.other hmade nofun⟩
  · have hstep := h.step hf
    rwa [Nat.zero_add] at hstep
  · obtain ⟨pc, hpc, hwaits⟩ := h.item_waitsAt (Nat.zero_add _) he hk
    rw [Nat.zero_add, Nat.zero_div, Nat.sub_zero] at hpc
    rw [Nat.zero_add] at hwaits
    have hlt := Field.itemsBefore_lt he
    refine ⟨pc, hpc, hwaits, _, _, hbatch _ pc hpc, by omega, ?_, by omega⟩
    split
    · exact Or.inl rfl
    · right
      omega

theorem Field.length_sources (fields : List Field) : (sources fields).length = fields.length := by
  induction fields with
  | nil => rw [sources]; rfl
  | cons f rest ih => rw [sources_cons, List.length_cons, List.length_cons, ih]

theorem loadTable_tableAt (hw : w.InFields) (hused : w.used = a + 1) (ha : a < 0x100)
    (hbatches : (Field.items fields).length ≤ 511 * 50) :
    Ensures False (loadTable (Field.sources fields) a) w fun _ w' =>
      ∃ states batches stores, Field.TableAt fields a w w' states batches stores := by
  rw [loadTable, ensures_currentLine_bind, Field.filter_sources, Field.length_sources]
  refine ((newTable_writes _ _ _).and (ensures_run _ w)).bind fun _ w₁ h₁ => ?_
  obtain ⟨⟨⟨b, c, hwrites⟩, hmade, hused₁⟩, hstart⟩ := h₁
  have hnone : waiting (Field.items fields).length 0 = 0 := by simp [waiting]
  have hstores := storeFields_fieldsAt w.draft.line hbatches ha fields 0 w₁ (Nat.zero_add _)
    (hw.straight hmade) (by omega)
  refine hstores.mono fun _ w' h' => ?_
  obtain ⟨hstraight, hfields⟩ := h'
  obtain ⟨states, batches, stores, rfl, hstop, hat⟩ := hfields w' (.refl w' a)
  have hnew := hwrites.hasAt hstraight.toAppends
  rw [Nat.mod_eq_of_lt ha] at hnew
  exact ⟨states, batches, stores, hat.tableAt hstart hwrites.pc hstop hnew⟩

/-- Every item of a constructor is stored at its own index, and every entry under its key. -/
theorem loadTable_stores {o : Options} (hreach : Reachable o w) (hregisters : o.registerLimit ≤ 255)
    (hconstants : o.constantLimit ≤ 255) (hused : w.used = a + 1) {fields : List Field}
    (hbatches : (Field.items fields).length ≤ 511 * 50)
    (hrun : loadTable (Field.sources fields) a w = .ok () w') :
    ∃ states batches stores, Field.TableAt fields a w w' states batches stores := by
  have hle := hreach.used_le
  have hw := hreach.inFields hregisters hconstants
  exact (loadTable_tableAt hw hused (by omega) hbatches).of_ok hrun

/-- Forty-nine nils, `k = f()`, the table `{1, [x] = true}` and then `g(...)`. -/
theorem loadTable_stores_of_nested :
    let fields : List Field := List.replicate 49 (.item .nil) ++
      [.entry (.string "k") (.call ⟨.name "f", none, [], 1⟩),
        .item (.table [.item (.integer 1), .entry (.name "x") (.boolean true)]),
        .item (.call ⟨.name "g", none, [.vararg], 1⟩)]
    ∃ w w', takeRegister (.main {}) = .ok 0 w ∧ w.used = 1 ∧
      loadTable (Field.sources fields) 0 w = .ok () w' ∧ (Field.items fields).length = 51 ∧
      ∃ states first last store, Field.TableAt fields 0 w w' states [first, last] [store] ∧
        w'.HasAt first .setList 0 50 1 ∧ w'.HasAt last .setList 0 0 2 := by
  intro fields
  have hrun : (match takeRegister (.main {}) with
      | .ok r w =>
        match loadTable (Field.sources fields) 0 w with
        | .ok _ _ => decide (r = 0 ∧ w.used = 1)
        | _ => false
      | _ => false) = true := by decide +kernel
  split at hrun
  · next r w htake =>
    split at hrun
    · next w' hload =>
      obtain ⟨rfl, hused⟩ := of_decide_eq_true hrun
      have hreach : Reachable {} w :=
        .history .main ((History.start _).finished .takeRegister htake)
      obtain ⟨states, batches, stores, htable⟩ := loadTable_stores hreach (by decide) (by decide)
        hused (by decide) hload
      obtain ⟨first, last, rfl⟩ := List.length_eq_two.mp (htable.batchCount.trans (by decide))
      obtain ⟨store, rfl⟩ := List.length_eq_one_iff.mp (htable.entryCount.trans (by decide))
      exact ⟨w, w', htake, hused, hload, rfl, states, first, last, store, htable,
        htable.batch 0 first rfl, htable.batch 1 last rfl⟩
    · cases hrun
  · cases hrun

end LuaLowering
