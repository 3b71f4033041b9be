import LuaLowering.Draft

/-!
# Which local a name stands for

A draft answers a name from two records: the map of visible names, and in each
local the declaration that it hides. Neither mentions scopes, yet together they
have to behave like a search through the open scopes, the latest declaration
first. `Draft.Tracks` is that agreement, for a list of locals that are open; it
also fixes the registers, which are the positions in that list.

The agreement is stated of a list rather than of the scopes themselves, because
leaving a scope takes it apart before its locals are ended one by one.
-/

namespace LuaLowering

variable {d d' : Draft} {i : Nat} {v : Local} {x : String} {is : List Nat}

/-- A local as it was declared, before anything became of it. -/
def Local.declared (v : Local) : Local := { v with endPc := v.startPc, captured := false }

namespace Draft

/-- The locals of the open scopes, the latest first. -/
def opened (d : Draft) : List Nat := d.scopes.flatMap (·.locals)

/-- What was declared at an index. -/
def declarationAt? (d : Draft) (i : Nat) : Option Local := d.locals[i]?.map Local.declared

/-- The first of some locals that has a name. -/
def latest? (d : Draft) (x : String) (is : List Nat) : Option Nat :=
  is.find? fun i => (d.declarationAt? i).any fun v => v.name == x

/-- The locals of a list hold the registers from zero on, the last one the
lowest, and each hides the latest of the same name before it. -/
def Stacked (d : Draft) : List Nat → Prop
  | [] => True
  | i :: rest =>
    (∃ v, d.declarationAt? i = some v ∧ v.slot = rest.length ∧
      v.shadowed = d.latest? v.name rest) ∧ (∀ j ∈ rest, j < i) ∧ d.Stacked rest

/-- The names and registers of a draft are those of a list of locals. -/
structure Tracks (d : Draft) (is : List Nat) : Prop where
  stacked : d.Stacked is
  visible : ∀ x, d.visible.find? x = d.latest? x is

theorem declarationAt?_eq_some (h : d.locals[i]? = some v) :
    d.declarationAt? i = some v.declared := by
  rw [declarationAt?, h, Option.map_some]

theorem exists_of_declarationAt? {u : Local} (h : d.declarationAt? i = some u) :
    ∃ v, d.locals[i]? = some v ∧ v.declared = u :=
  Option.map_eq_some_iff.mp h

/-! ## Only the declarations matter -/

theorem latest?_congr (h : ∀ i ∈ is, d'.declarationAt? i = d.declarationAt? i) :
    d'.latest? x is = d.latest? x is := by
  induction is with
  | nil => rfl
  | cons i rest ih =>
    have hrest := ih fun j hj => h j (List.mem_cons_of_mem _ hj)
    rw [latest?, latest?] at hrest ⊢
    rw [List.find?_cons, List.find?_cons, h i List.mem_cons_self, hrest]

theorem Stacked.congr (hs : d.Stacked is) (h : ∀ i ∈ is, d'.declarationAt? i = d.declarationAt? i) :
    d'.Stacked is := by
  induction is with
  | nil => trivial
  | cons i rest ih =>
    have hrest : ∀ j ∈ rest, d'.declarationAt? j = d.declarationAt? j :=
      fun j hj => h j (List.mem_cons_of_mem _ hj)
    obtain ⟨⟨v, hv, hslot, hshadow⟩, hlt, htail⟩ := hs
    refine ⟨⟨v, ?_, hslot, ?_⟩, hlt, ih htail hrest⟩
    · rw [h i List.mem_cons_self, hv]
    · rw [hshadow, latest?_congr hrest]

theorem Tracks.congr (ht : d.Tracks is) (hv : d'.visible = d.visible)
    (h : ∀ i ∈ is, d'.declarationAt? i = d.declarationAt? i) : d'.Tracks is :=
  ⟨ht.stacked.congr h, fun x => by rw [hv, ht.visible, latest?_congr h]⟩

theorem Stacked.exists_local (hs : d.Stacked is) :
    ∀ i ∈ is, ∃ v, d.locals[i]? = some v ∧ v.slot < is.length := by
  induction is with
  | nil =>
    intro i hi
    cases hi
  | cons j rest ih =>
    obtain ⟨⟨u, hu, hslot, -⟩, -, htail⟩ := hs
    intro i hi
    rcases List.mem_cons.mp hi with rfl | hmem
    · obtain ⟨v, hv, rfl⟩ := exists_of_declarationAt? hu
      refine ⟨v, hv, ?_⟩
      have hv' : v.slot = rest.length := hslot
      rw [List.length_cons]
      omega
    · obtain ⟨v, hv, hlt⟩ := ih htail i hmem
      refine ⟨v, hv, ?_⟩
      rw [List.length_cons]
      omega

theorem Stacked.lt_size (hs : d.Stacked is) : ∀ i ∈ is, i < d.locals.size := by
  intro i hi
  obtain ⟨v, hv, -⟩ := hs.exists_local i hi
  exact (Array.getElem?_eq_some_iff.mp hv).1

theorem not_mem_of_stacked {js : List Nat} (h : d.Stacked (is ++ js)) : ∀ i ∈ is, i ∉ js := by
  induction is with
  | nil => exact fun _ h => (List.not_mem_nil h).elim
  | cons j rest ih =>
    intro i hi hmem
    rcases List.mem_cons.mp hi with rfl | hrest
    · exact Nat.lt_irrefl _ (h.2.1 i (List.mem_append_right _ hmem))
    · exact ih h.2.2 i hrest hmem

theorem mem_of_latest? (h : d.latest? x is = some i) : i ∈ is := List.mem_of_find?_eq_some h

/-- What a name stands for is a local that is there and has that name. -/
theorem Stacked.latest?_local (hs : d.Stacked is) (h : d.latest? x is = some i) :
    ∃ v, d.locals[i]? = some v ∧ v.name = x ∧ v.slot < is.length := by
  obtain ⟨v, hv, hlt⟩ := hs.exists_local i (mem_of_latest? h)
  refine ⟨v, hv, ?_, hlt⟩
  have hp := List.find?_some h
  rw [declarationAt?_eq_some hv] at hp
  simpa [Local.declared] using hp

/-! ## Declaring and ending -/

theorem declarationAt?_push (h : i < d.locals.size) (hd : d'.locals = d.locals.push v) :
    d'.declarationAt? i = d.declarationAt? i := by
  rw [declarationAt?, declarationAt?, hd, Array.getElem?_push_lt h, Array.getElem?_eq_getElem h]

/-- A new local on top of the open ones, in the register after theirs. -/
theorem Tracks.declare (ht : d.Tracks is) (x : String) (startPc : Nat) :
    (d.declare x is.length startPc).Tracks (d.locals.size :: is) := by
  have hlt : ∀ j ∈ is, j < d.locals.size := ht.stacked.lt_size
  have hold : ∀ j ∈ is, (d.declare x is.length startPc).declarationAt? j = d.declarationAt? j :=
    fun j hj => declarationAt?_push (hlt j hj) rfl
  have hnew : (d.declare x is.length startPc).declarationAt? d.locals.size =
      some { name := x, slot := is.length, startPc := startPc, endPc := startPc,
             captured := false, shadowed := d.visible.find? x } := by
    rw [declarationAt?, Draft.declare]
    simp [Local.declared]
  refine ⟨⟨⟨_, hnew, rfl, ?_⟩, hlt, ht.stacked.congr hold⟩, fun y => ?_⟩
  · rw [latest?_congr hold]
    exact ht.visible x
  · have hmap : (d.declare x is.length startPc).visible = d.visible.insert x d.locals.size := rfl
    have hrest : List.find? (fun i => ((d.declare x is.length startPc).declarationAt? i).any
        fun v => v.name == y) is = d.latest? y is := latest?_congr hold
    rw [hmap, NameMap.find?_insert, latest?, List.find?_cons, hnew, hrest]
    by_cases hxy : x = y
    · simp [hxy]
    · have hne : (x == y) = false := by simpa using hxy
      simp [hxy, hne, ht.visible y]

theorem declarationAt?_endLocal (hv : d.locals[i]? = some v) (endPc j : Nat) :
    (d.endLocal i v endPc).declarationAt? j = d.declarationAt? j := by
  rw [declarationAt?, declarationAt?, endLocal]
  by_cases hij : i = j
  · subst hij
    have hlt := (Array.getElem?_eq_some_iff.mp hv).1
    rw [Array.getElem?_setIfInBounds_self_of_lt hlt, hv]
    rfl
  · rw [Array.getElem?_setIfInBounds_ne hij]

/-- Ending the latest local brings back the one that it hid. -/
theorem Tracks.endLocal {rest : List Nat} (ht : d.Tracks (i :: rest)) (hv : d.locals[i]? = some v)
    (endPc : Nat) : (d.endLocal i v endPc).Tracks rest := by
  obtain ⟨⟨⟨u, hu, -, hshadow⟩, -, htail⟩, hvis⟩ := ht
  have hsame := fun j (_ : j ∈ rest) => declarationAt?_endLocal hv endPc j
  rw [declarationAt?_eq_some hv] at hu
  obtain rfl := Option.some.inj hu
  have hshadow' : v.shadowed = d.latest? v.name rest := hshadow
  refine ⟨htail.congr hsame, fun y => ?_⟩
  have hmap : (d.endLocal i v endPc).visible = d.visible.restore v.name v.shadowed := rfl
  rw [hmap, NameMap.find?_restore, latest?_congr hsame]
  by_cases hy : v.name = y
  · rw [if_pos hy, hshadow', hy]
  · have hne : (v.name == y) = false := by simpa using hy
    rw [if_neg hy, hvis y, latest?, latest?, List.find?_cons, declarationAt?_eq_some hv]
    simp [Local.declared, hne]

/-! ## Moving the ends of locals -/

theorem getElem?_prolongLocals (d : Draft) (first count delta i : Nat) :
    (d.prolongLocals first count delta).locals[i]? = d.locals[i]?.map fun v =>
      if first ≤ i ∧ i < first + count then { v with endPc := v.endPc + delta } else v := by
  induction count with
  | zero =>
    have hno : ¬ (first ≤ i ∧ i < first + 0) := by omega
    simp only [if_neg hno, Option.map_id']
    rfl
  | succ n ih =>
    rw [prolongLocals] at ih ⊢
    dsimp only at ih ⊢
    rw [List.range'_1_concat, List.foldl_append, List.foldl_cons, List.foldl_nil,
      Array.getElem?_modify]
    split
    · next hin =>
      subst hin
      rw [ih, Option.map_map]
      refine congrArg (fun f => Option.map f _) (funext fun v => ?_)
      have hno : ¬ (first ≤ first + n ∧ first + n < first + n) := by omega
      have hyes : first ≤ first + n ∧ first + n < first + (n + 1) := by omega
      rw [Function.comp_apply, if_neg hno, if_pos hyes]
    · next hout =>
      rw [ih]
      refine congrArg (fun f => Option.map f _) (funext fun v => ?_)
      have hiff : (first ≤ i ∧ i < first + n) ↔ (first ≤ i ∧ i < first + (n + 1)) := by omega
      simp only [hiff]

theorem size_prolongLocals (d : Draft) (first count delta : Nat) :
    (d.prolongLocals first count delta).locals.size = d.locals.size := by
  induction count with
  | zero => rfl
  | succ n ih =>
    rw [prolongLocals] at ih ⊢
    dsimp only at ih ⊢
    rw [List.range'_1_concat, List.foldl_append, List.foldl_cons, List.foldl_nil,
      Array.size_modify, ih]

theorem declarationAt?_prolongLocals (d : Draft) (first count delta i : Nat) :
    (d.prolongLocals first count delta).declarationAt? i = d.declarationAt? i := by
  rw [declarationAt?, declarationAt?, getElem?_prolongLocals, Option.map_map]
  refine congrArg (fun f => Option.map f _) (funext fun v => ?_)
  rw [Function.comp_apply]
  split <;> rfl

end Draft

end LuaLowering
