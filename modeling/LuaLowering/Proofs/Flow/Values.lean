import LuaLowering.Proofs.Flow.Operators

/-!
# Rows of values as structured code

Lists, table constructors and calls put values into a row of registers. What
counts about a row is where it begins and how many values it has, which for the
last of them may be as many as there are.
-/

namespace LuaLowering

variable {S : Site} {proper : Prop} {opened : List Nat} {K K' : Set Nat}
  {a b c used : Nat} {want : Int} {lo mid hi : Mark} {n lastWant : Int} {parts args : List Part}
  {pc done batch : Nat} {K₀ : Set Nat} {fields : List FieldPart}
  {callee : Part}

/-! ## Lists of values -/

/-- How many values a list of parts has, when `lastWant` are wanted of the last. -/
def totalWant (n : Nat) (lastWant : Int) : Int :=
  if n = 0 then 0 else if lastWant < 0 then allValues else n - 1 + lastWant

theorem totalWant_one (lastWant : Int) (h : -1 ≤ lastWant) : totalWant 1 lastWant = lastWant := by
  simp only [totalWant, allValues]
  split <;> [omega; split <;> omega]

theorem totalWant_each (n : Nat) : totalWant n 1 = n := by
  simp only [totalWant]
  split <;> [omega; simp]

/-- One value and then those of a list are the values of a longer list. -/
theorem loaded_totalWant (K : Set Nat) (used n : Nat) (lastWant : Int) :
    loaded K used (totalWant (n + 2) lastWant) ⊆
      loaded (loaded K used 1) (used + 1) (totalWant (n + 1) lastWant) := by
  have hmore : totalWant (n + 1) lastWant < 0 ∨ 0 ≤ totalWant (n + 2) lastWant ∧
      totalWant (n + 2) lastWant ≤ totalWant (n + 1) lastWant + 1 := by
    simp only [totalWant, allValues, Nat.succ_ne_zero, if_false]
    split <;> omega
  rintro r (⟨hlt, hK⟩ | ⟨hge, hwant⟩)
  · exact Or.inl ⟨Nat.lt_succ_of_lt hlt, Or.inl ⟨hlt, hK⟩⟩
  · rcases Nat.eq_or_lt_of_le hge with rfl | hgt
    · exact Or.inl ⟨Nat.lt_succ_self _, Or.inr ⟨le_rfl, Or.inr (by omega)⟩⟩
    · exact Or.inr ⟨hgt, by omega⟩

/-- Room for the values of a list is also room for those after the first. -/
theorem room_totalWant {n : Nat} (hone : S.Room (used + 1))
    (hroom : S.Room (used + (totalWant (n + 2) lastWant).toNat)) :
    S.Room (used + 1 + (totalWant (n + 1) lastWant).toNat) := by
  rcases lt_or_ge lastWant 0 with hneg | hpos
  · simpa [totalWant, hneg, allValues] using hone
  · refine hroom.mono ?_
    simp only [totalWant, Nat.succ_ne_zero, if_false, Int.not_lt.mpr hpos]
    omega

theorem EachIs.room (hne : parts ≠ []) (h : EachIs S opened lastWant parts used lo hi) :
    S.Room (used + parts.length) := by
  induction parts generalizing used lo with
  | nil => exact absurd rfl hne
  | cons p rest ih =>
    cases rest with
    | nil => exact h.1
    | cons q rest =>
      obtain ⟨mid, -, -, hrest⟩ := h
      have hroom := ih (List.cons_ne_nil _ _) hrest
      simp only [List.length_cons] at hroom ⊢
      exact hroom.mono (by omega)

/-- One value after another is loaded. The last part may be asked for more or less
than one, if it is a call or `...`. -/
theorem EachIs.codes (hparts : ∀ p ∈ parts, p.Codes proper)
    (hlast : Part.expands parts = true ∨ lastWant = 1) (hwant : -1 ≤ lastWant)
    (hroom : S.Room (used + (totalWant parts.length lastWant).toNat)) (hfree : S.Free opened K used)
    (h : EachIs S opened lastWant parts used lo hi) :
    Code S proper opened K lo hi (loaded K used (totalWant parts.length lastWant)) := by
  induction parts generalizing used lo K with
  | nil =>
    obtain rfl : hi = lo := h
    refine .drop fun r hr => ?_
    rcases hr with ⟨-, hr⟩ | ⟨hge, hlt⟩
    · exact hr
    · simp only [totalWant, List.length_nil, if_pos] at hlt
      omega
  | cons p rest ih =>
    rw [List.forall_mem_cons] at hparts
    cases rest with
    | nil =>
      rw [List.length_singleton, totalWant_one lastWant hwant] at hroom ⊢
      exact hparts.1 hfree h.1 hroom hwant hlast h.2
    | cons q rest =>
      obtain ⟨mid, hone, hfirst, hrest⟩ := h
      have hmore : S.Room (used + 1 + (totalWant (q :: rest).length lastWant).toNat) :=
        room_totalWant hone hroom
      refine .seq (hparts.1 (n := 1) hfree hone hone (by decide) (Or.inr rfl) hfirst)
        (.seq (ih hparts.2 hlast hmore (hfree.loaded (Nat.le_succ _)) hrest) (.drop ?_))
      exact loaded_totalWant K used rest.length lastWant

/-- All values of a list are those of its parts, and there is room for as many as
are known. -/
theorem AllIs.each (hroom : S.Room used) (h : AllIs S opened parts n used lo hi) :
    ∃ lastWant, EachIs S opened lastWant parts used lo hi ∧
      (Part.expands parts = true ∨ lastWant = 1) ∧ -1 ≤ lastWant ∧
      totalWant parts.length lastWant = n ∧ (n < 0 ↔ lastWant < 0) ∧ -1 ≤ n ∧
      S.Room (used + n.toNat) ∧ (n = -1 → S.Room (used + 1)) := by
  rw [AllIs] at h
  split at h
  · next hexpands =>
    obtain ⟨heach, rfl⟩ := h
    have hne : parts ≠ [] := by
      rintro rfl
      cases hexpands
    have hlen : parts.length ≠ 0 := fun h => hne (List.length_eq_zero_iff.mp h)
    exact ⟨allValues, heach, Or.inl hexpands, by decide, by simp [totalWant, hlen, allValues],
      Iff.rfl, by decide, hroom, fun _ => (heach.room hne).mono (by omega)⟩
  · obtain ⟨heach, rfl⟩ := h
    have hroom' : S.Room (used + parts.length) := by
      by_cases hne : parts = []
      · rw [hne]
        exact hroom
      · exact heach.room hne
    exact ⟨1, heach, Or.inr rfl, by decide, totalWant_each _, by omega, by omega, hroom', by omega⟩

/-- All values of a list are loaded. -/
theorem AllIs.codes (hparts : ∀ p ∈ parts, p.Codes proper) (hfree : S.Free opened K used)
    (hroom : S.Room used) (h : AllIs S opened parts n used lo hi) :
    Code S proper opened K lo hi (loaded K used n) ∧ -1 ≤ n ∧ S.Room (used + n.toNat) ∧
      (n = -1 → S.Room (used + 1)) := by
  obtain ⟨lastWant, heach, hlast, hwant, rfl, -, hn, hroom', hopen⟩ := h.each hroom
  exact ⟨heach.codes hparts hlast hwant hroom' hfree, hn, hroom', hopen⟩

theorem loaded_mono {want' : Int} (hK : ∀ r < a, r ∈ K → r ∈ K')
    (hwant : want' < 0 ∨ 0 ≤ want ∧ want ≤ want') : loaded K a want ⊆ loaded K' a want' := by
  rintro r (⟨hlt, hr⟩ | ⟨hge, hr⟩)
  · exact Or.inl ⟨hlt, hK r hlt hr⟩
  · exact Or.inr ⟨hge, by omega⟩

/-- Registers in a row are set to nil. -/
theorem loadNil_codes {n : Nat} (hS : S.Limited) (hroom : S.Room (a + n + 1))
    (hkeep : ∀ r < a, r ∈ K' → r ∈ K) (hcode : S.Writes (.abc .loadNil a n 0) lo hi) :
    Code S proper opened K lo hi (loaded K' a (n + 1)) := by
  have hmax := hS.peak_le
  have hpeak := hroom.2
  have hadm : S.Admits .loadNil a n 0 K := by
    refine ⟨by omega, by omega, by omega, by simp, ?_, ?_, ?_, ?_⟩ <;>
      simp
    omega
  refine hadm.code hcode rfl fun r hr => ?_
  rcases hr with ⟨hlt, hr⟩ | ⟨hge, hlt⟩
  · exact Or.inl ⟨hkeep r hlt hr, by simp⟩
  · refine Or.inr ⟨_, List.mem_singleton_self _, ?_⟩
    rw [Span.toSet_some, Set.mem_Ico]
    omega

theorem Part.mem_of_mem_withoutTailNils {p : Part} (h : p ∈ Part.withoutTailNils parts) :
    p ∈ parts := by
  rw [Part.withoutTailNils, List.mem_reverse] at h
  exact List.mem_reverse.mp ((List.dropWhile_sublist _).mem h)

/-- A list is adjusted by what is wanted of its last part, or by nils behind it. -/
theorem AdjustedIs.each {n : Nat} (hroom : S.Room used)
    (h : AdjustedIs S opened n parts used lo hi) : S.Room (used + n) ∧
      ∃ parts' lastWant mid, (∀ p ∈ parts', p ∈ parts) ∧
        EachIs S opened lastWant parts' used lo mid ∧
        (Part.expands parts' = true ∨ lastWant = 1) ∧ 0 ≤ lastWant ∧
        S.Room (used + (totalWant parts'.length lastWant).toNat) ∧
        (hi = mid ∧ (n : Int) ≤ totalWant parts'.length lastWant ∨
          lastWant = 1 ∧ parts'.length < n ∧
            S.Writes (.abc .loadNil (used + parts'.length) (n - parts'.length - 1) 0) mid hi) := by
  have hsub : ∀ p ∈ Part.withoutTailNils parts, p ∈ parts :=
    fun p hp => Part.mem_of_mem_withoutTailNils hp
  rw [AdjustedIs] at h
  generalize Part.withoutTailNils parts = parts' at h hsub
  -- the room that the parts themselves take
  have hgiven : ∀ {lastWant : Int} {hi' : Mark},
      EachIs S opened lastWant parts' used lo hi' → S.Room (used + parts'.length) := by
    intro lastWant hi' heach
    by_cases hne : parts' = []
    · rw [hne]
      exact hroom
    · exact heach.room hne
  split at h
  · next hle =>
    have hroom' := hgiven h
    generalize hlast : (if n < parts'.length ∧ Part.expands parts' = true then (0 : Int) else 1) =
      lastWant at h
    have hcases : Part.expands parts' = true ∧ lastWant = 0 ∧ n < parts'.length ∨ lastWant = 1 := by
      rw [← hlast]
      split
      · next hsurplus => exact Or.inl ⟨hsurplus.2, rfl, hsurplus.1⟩
      · exact Or.inr rfl
    have hbound : 0 ≤ lastWant ∧ (n : Int) ≤ totalWant parts'.length lastWant ∧
        totalWant parts'.length lastWant ≤ parts'.length := by
      simp only [totalWant]
      split <;> [omega; split <;> omega]
    exact ⟨hroom'.mono (by omega), parts', lastWant, hi, hsub, h, hcases.imp_left (·.1), hbound.1,
      hroom'.mono (by omega), Or.inl ⟨rfl, hbound.2.1⟩⟩
  · next hlt =>
    obtain ⟨hroom', h⟩ := h
    split at h
    · next hexpands =>
      have hne : parts'.length ≠ 0 := by
        intro hzero
        rw [List.length_eq_zero_iff.mp hzero] at hexpands
        cases hexpands
      have htotal : totalWant parts'.length ((n - parts'.length : Nat) + 1) = n := by
        simp only [totalWant, hne, if_false]
        split <;> omega
      refine ⟨hroom', parts', _, hi, hsub, h, Or.inl hexpands, by omega, ?_, Or.inl ⟨rfl, by omega⟩⟩
      rw [htotal]
      exact hroom'
    · obtain ⟨mid, heach, hnil⟩ := h
      refine ⟨hroom', parts', 1, mid, hsub, heach, Or.inr rfl, by decide, ?_,
        Or.inr ⟨rfl, by omega, hnil⟩⟩
      rw [totalWant_each]
      exact hgiven heach

/-- A list is loaded into as many registers as it has to fill. -/
theorem AdjustedIs.codes {n : Nat} (hparts : ∀ p ∈ parts, p.Codes proper)
    (hfree : S.Free opened K used) (hroom : S.Room used)
    (h : AdjustedIs S opened n parts used lo hi) :
    Code S proper opened K lo hi (loaded K used n) ∧ S.Room (used + n) := by
  obtain ⟨hroom', parts', lastWant, mid, hsub, heach, hlast, hwant, htotal, hrest⟩ := h.each hroom
  refine ⟨?_, hroom'⟩
  have hcode := heach.codes (fun p hp => hparts p (hsub p hp)) hlast (by omega) htotal hfree
  rcases hrest with ⟨rfl, hle⟩ | ⟨rfl, hlt, hnil⟩
  · exact .seq hcode (.drop (loaded_mono (fun _ _ => id) (Or.inr ⟨by omega, hle⟩)))
  · rw [totalWant_each] at hcode
    refine .seq hcode (.seq (loadNil_codes hfree.limited (hroom'.mono (by omega)) (fun _ _ => id)
      hnil) (.drop fun r hr => ?_))
    rcases hr with ⟨hlow, hr⟩ | ⟨hge, hr⟩
    · exact Or.inl ⟨by omega, Or.inl ⟨hlow, hr⟩⟩
    · rcases Nat.lt_or_ge r (used + parts'.length) with hlow | hhigh
      · exact Or.inl ⟨hlow, Or.inr ⟨hge, Or.inr (by omega)⟩⟩
      · exact Or.inr ⟨hhigh, Or.inr (by omega)⟩

theorem ConcatIs.codes (hparts : ∀ p ∈ parts, p.Codes proper) (hfree : S.Free opened K a)
    (hroom : S.Room (a + 1)) (h : ConcatIs S opened parts a (a + 1) lo hi) :
    Code S proper opened K lo hi (loaded K a 1) := by
  obtain ⟨mid, heach, hcode⟩ := h
  have htotal := totalWant_each parts.length
  have hroom' : S.Room (a + 1 + parts.length) := by
    by_cases hne : parts = []
    · rw [hne]
      exact hroom
    · exact heach.room hne
  have hload := heach.codes hparts (Or.inr rfl) (by decide) (by rw [htotal]; exact hroom')
    (hfree.advance (Nat.le_succ a) fun _ _ => id)
  rw [htotal] at hload
  have hmax := hfree.limited.peak_le
  have hpeak := hroom'.2
  have hadm : S.Admits .concat a (a + 1) (a + 1 + parts.length - 1)
      (loaded K (a + 1) parts.length) := by
    refine ⟨by omega, by omega, by omega, by simp, ?_, ?_, ?_, ?_⟩ <;>
      simp
    · intro r hge hlt
      exact ⟨Or.inr ⟨hge, Or.inr (by omega)⟩, by omega⟩
    · omega
  exact .seq hload (hadm.load hcode rfl rfl rfl fun r hr hK => Or.inl ⟨by omega, hK⟩)

/-! ## Table constructors -/

/-- The parts of a field load what they are asked for. -/
def FieldPart.Codes (proper : Prop) : FieldPart → Prop
  | .item value => value.Codes proper
  | .entry key value => key.Codes proper ∧ value.Codes proper

theorem Site.Admits.setTable (hS : S.Limited) (ha : a ∈ K) (ha' : a < S.peak)
    (hb : S.Readable K b) (hc : S.Readable K c) : S.Admits .setTable a b c K := by
  have hmax := hS.peak_le
  refine ⟨by omega, hb.lt, hc.lt, by simp, fun s hs => ?_, by simp, fun k hk => ?_, by simp⟩
  · simp only [Opcode.reads, List.mem_cons, List.mem_append] at hs
    rcases hs with rfl | hs | hs
    · exact Span.full_one.mpr ⟨ha, ha'⟩
    · exact hb.registers s hs
    · exact hc.registers s hs
  · simp only [Opcode.constants, List.mem_append] at hk
    exact hk.elim (hb.constants k) (hc.constants k)

/-- A batch of items is stored. The number of the batch is cut to its field. -/
theorem setList_codes {n : Nat} (hS : S.Limited) (hroom : S.Room (a + 1 + n)) (hn : 0 < n)
    (hfull : ∀ r, a ≤ r → r < a + 1 + n → r ∈ K)
    (hcode : S.Writes (.abc .setList a n (batch + 1)) lo hi) : Code S proper opened K lo hi K := by
  have hmax := hS.peak_le
  have hpeak := hroom.2
  obtain ⟨hcode, rfl⟩ := hcode
  rw [Request.word, ← Instruction.abc_mod, Nat.mod_eq_of_lt (show n < 0x200 by omega)] at hcode
  have hadm : S.Admits .setList a n ((batch + 1) % 0x200) K := by
    refine ⟨by omega, by omega, by omega, by simp, ?_, ?_, ?_, ?_⟩ <;>
      simp [Nat.pos_iff_ne_zero.mp hn]
    refine ⟨⟨hfull a (by omega) (by omega), by omega⟩, fun r hge hlt => ?_⟩
    exact ⟨hfull r (by omega) (by omega), by omega⟩
  refine hadm.step hcode rfl fun r hr => Or.inl ⟨hr, fun base hb => ?_⟩
  rw [Opcode.base?, if_neg (by omega)] at hb
  cases hb

/-- All items from some register on are stored, which leaves the table alone. -/
theorem setList_open_codes (hS : S.Limited) (hroom : S.Room (a + 2)) (hfull : ∀ r, a ≤ r → r ∈ K)
    (hcode : S.Writes (.abc .setList a 0 (batch + 1)) lo hi) :
    Code S proper opened K lo hi (loaded K a 1) := by
  have hmax := hS.peak_le
  have hpeak := hroom.2
  obtain ⟨hcode, rfl⟩ := hcode
  rw [Request.word, ← Instruction.abc_mod] at hcode
  have hadm : S.Admits .setList a 0 ((batch + 1) % 0x200) K := by
    refine ⟨by omega, by omega, by omega, by simp, ?_, ?_, ?_, ?_⟩ <;>
      simp
    exact ⟨⟨hfull a le_rfl, by omega⟩, fun r hge => hfull r (by omega), by omega⟩
  refine hadm.step hcode rfl fun r hr => Or.inl ?_
  rw [mem_loaded] at hr
  rcases hr with ⟨hlt, hr⟩ | ⟨hge, hlt⟩
  · exact ⟨hr, by simp; omega⟩
  · exact ⟨hfull r hge, by simp; omega⟩

/-- One more value on top of a row. -/
theorem loaded_snoc (hle : a ≤ used) (hK : loaded K₀ a (used - a : Nat) ⊆ K)
    (hwant : want < 0 ∨ 1 ≤ want) : loaded K₀ a (used + 1 - a : Nat) ⊆ loaded K used want := by
  rintro r (⟨hlt, hr⟩ | ⟨hge, hlt⟩)
  · exact Or.inl ⟨by omega, hK (Or.inl ⟨hlt, hr⟩)⟩
  · rcases Nat.lt_or_ge r used with hlow | hhigh
    · exact Or.inl ⟨hlow, hK (Or.inr ⟨hge, Or.inr (by omega)⟩)⟩
    · exact Or.inr ⟨hhigh, by omega⟩

/-- The last item gives all its values, and they go with the last batch. -/
theorem spread_codes {value : Part} (hv : value.Codes proper) (hmulti : value.exp.isMulti = true)
    (hfree : S.Free opened K₀ a) (hlt : a < used) (hK : loaded K₀ a (used - a : Nat) ⊆ K)
    (hroom : S.Room (used + 1))
    (hload : value.shape S opened used allValues (used + 1) lo mid)
    (hstore : S.Writes (.abc .setList a 0 (batch + 1)) mid hi) :
    Code S proper opened K lo hi (loaded K₀ a 1) := by
  have hlow : ∀ r < a, r ∈ K₀ → r ∈ K := fun r hr hr' => hK (Or.inl ⟨hr, hr'⟩)
  have hcode := hv (n := allValues) (hfree.advance (Nat.le_of_lt hlt) hlow) hroom
    (hroom.mono (Nat.le_succ _)) (by decide) (Or.inl hmulti) hload
  refine .seq hcode (.seq (setList_open_codes hfree.limited (hroom.mono (by omega))
    (fun r hge => ?_) hstore) (.drop (loaded_mono (fun r hr hr' => ?_) (Or.inr (by omega)))))
  · rcases Nat.lt_or_ge r used with hlt | hge'
    · exact Or.inl ⟨hlt, hK (Or.inr ⟨hge, Or.inr (by omega)⟩)⟩
    · exact Or.inr ⟨hge', Or.inl (by decide)⟩
  · exact Or.inl ⟨by omega, hlow r hr hr'⟩

/-- The table stays in its register, and above it wait the items that have not been
stored yet. -/
theorem FieldsAre.codes {total : Nat} (hfields : ∀ f ∈ fields, f.Codes proper)
    (hfree : S.Free opened K₀ a) (hroom : S.Room (a + 1))
    (htotal : done + FieldPart.items fields = total) (hused : used = a + 1 + waiting total done)
    (hK : loaded K₀ a (used - a : Nat) ⊆ K)
    (h : FieldsAre S opened a total fields done used lo hi) :
    Code S proper opened K lo hi (loaded K₀ a 1) := by
  induction fields generalizing done used lo K with
  | nil =>
    obtain rfl : hi = lo := h
    exact .drop ((loaded_mono (fun _ _ => id) (Or.inr (by omega))).trans hK)
  | cons f rest ih =>
    rw [List.forall_mem_cons] at hfields
    have hfree' : S.Free opened K used :=
      hfree.advance (by omega) fun r hr hr' => hK (Or.inl ⟨hr, hr'⟩)
    cases f with
    | item value =>
      obtain ⟨mid, hone, hload, hflush⟩ := h
      have hitems : FieldPart.items (.item value :: rest) = FieldPart.items rest + 1 := rfl
      have hwait : waiting total done = done % batchSize := if_neg (by omega)
      generalize hspread : (rest.isEmpty && value.exp.isMulti) = spread at hload hflush
      cases spread with
      | true =>
        rw [Bool.and_eq_true, List.isEmpty_iff] at hspread
        obtain ⟨rfl, hmulti⟩ := hspread
        have hlast : done + 1 = total := htotal
        rw [if_pos (Or.inr hlast)] at hflush
        obtain ⟨hstore, rfl⟩ := hflush
        exact spread_codes hfields.1 hmulti hfree (by omega) hK hone hload hstore
      | false =>
        have hcode := hfields.1 (n := 1) hfree' hone hone (by decide) (Or.inr rfl) hload
        have hrow := loaded_snoc (by omega) hK (Or.inr (Int.le_refl 1))
        have htotal' : done + 1 + FieldPart.items rest = total := by omega
        have hbatch := batchOf_succ done
        simp only [Bool.false_eq_true, if_false] at hflush
        split at hflush
        · next hfull =>
          obtain ⟨hstore, hrest⟩ := hflush
          have hnone : waiting total (done + 1) = 0 := waiting_of_full hfull
          refine .seq hcode (.seq (setList_codes hfree.limited (hone.mono (by omega))
            (by omega) (fun r hge hlt => hrow (Or.inr ⟨hge, Or.inr (by omega)⟩)) hstore)
            (ih hfields.2 htotal' (by omega) (.trans ?_ hrow) hrest))
          exact loaded_mono (fun _ _ => id) (Or.inr (by omega))
        · next hpart =>
          have hmore : waiting total (done + 1) = done % batchSize + 1 := waiting_of_part hpart
          exact .seq hcode (ih hfields.2 htotal' (by omega) hrow hflush)
    | entry key value =>
      obtain ⟨b, c, used₁, used₂, mid₁, mid₂, hkey, hvalue, hstore, hrest⟩ := h
      obtain ⟨hle₁, K₁, hcode₁, hkeep₁, hat₁⟩ := hkey.codes hfields.1.1 hfree'
      obtain ⟨hle₂, K₂, hcode₂, hkeep₂, hat₂⟩ :=
        hvalue.codes hfields.1.2 (hfree'.advance hle₁ hkeep₁)
      have hkeep : loaded K₀ a (used - a : Nat) ⊆ K₂ := by
        intro r hr
        refine hkeep₂ r ?_ (hkeep₁ r ?_ (hK hr)) <;> rw [mem_loaded] at hr <;> omega
      have hadm : S.Admits .setTable a b.field c.field K₂ :=
        .setTable hfree.limited (hkeep (Or.inr ⟨le_rfl, Or.inr (by omega)⟩)) hroom.2
          ((hat₁.keep hkeep₂ hle₂).readable hfree.limited (hkey.kind.2 rfl))
          (hat₂.readable hfree.limited (hvalue.kind.2 rfl))
      exact .seq hcode₁ (.seq hcode₂ (.seq (hadm.idle hstore rfl rfl)
        (ih hfields.2 htotal hused hkeep hrest)))

theorem TableIs.codes (hfields : ∀ f ∈ fields, f.Codes proper) (hfree : S.Free opened K a)
    (hroom : S.Room (a + 1)) (h : TableIs S opened fields a (a + 1) lo hi) :
    Code S proper opened K lo hi (loaded K a 1) := by
  obtain ⟨hnew, hstore⟩ := h
  have hmax := hfree.limited.peak_le
  have ha : a < S.peak := hroom.2
  have hadm : S.Admits .newTable a (SizeHint.encode (fields.filter (·.isItem)).length)
      (SizeHint.encode (fields.length - (fields.filter (·.isItem)).length)) K := by
    refine ⟨by omega, SizeHint.encode_lt _, SizeHint.encode_lt _, by simp, ?_, ?_, ?_, ?_⟩ <;>
      simp [ha]
  have hnone : waiting (FieldPart.items fields) 0 = 0 := waiting_zero _
  refine .seq (hadm.load hnew rfl rfl rfl fun _ _ => id)
    (FieldsAre.codes hfields hfree hroom (Nat.zero_add _) ?_ ?_ hstore)
  · rw [hnone]
  · exact loaded_mono (fun _ _ => id) (Or.inr (by omega))

/-! ## Calls -/

theorem MethodIs.codes {method : String} (hfree : S.Free opened K a) (hself : a ∈ K)
    (h : MethodIs S opened method a (a + 1) lo hi) :
    Code S proper opened K lo hi (loaded K a 2) ∧ S.Room (a + 2) := by
  obtain ⟨key, used', mid, hroom, hkey, hcode⟩ := h
  have hS := hfree.limited
  have hmax := hS.peak_le
  have hpeak := hroom.2
  obtain ⟨hle, K₁, hcode₁, hkeep, hat⟩ := hkey.codes (Part.constant_codes _ _ rfl)
    (hfree.advance (show a ≤ a + 1 + 1 by omega) fun _ _ => id)
  have hk := hat.readable hS (hkey.kind.2 rfl)
  have hadm : S.Admits .self a a key.field K₁ := by
    refine ⟨by omega, by omega, hk.lt, by simp, fun s hs => ?_, ?_, hk.constants, by simp⟩
    · simp only [Opcode.reads, List.mem_cons] at hs
      rcases hs with rfl | hs
      · exact Span.full_one.mpr ⟨hkeep a (by omega) hself, by omega⟩
      · exact hk.registers s hs
    · simp
      omega
  refine ⟨.seq hcode₁ (hadm.code hcode rfl fun r hr => ?_), hroom⟩
  rcases hr with ⟨hlt, hr⟩ | ⟨hge, hlt⟩
  · exact Or.inl ⟨hkeep r (by omega) hr, by simp⟩
  · refine Or.inr ⟨_, List.mem_singleton_self _, ?_⟩
    rw [Span.toSet_some, Set.mem_Ico]
    omega

/-- What a call needs stands in a row: the function and its arguments. -/
theorem LaidOutIs.codes {method : Option String} (hc : callee.Codes proper)
    (hargs : ∀ p ∈ args, p.Codes proper) (hfree : S.Free opened K a) (hroom : S.Room (a + 1))
    (h : LaidOutIs S opened callee method args a n (a + 1) lo hi) :
    Code S proper opened K lo hi (loaded K a (if n < 0 then allValues else n + 1)) ∧ -1 ≤ n ∧
      S.Room (a + 1 + n.toNat) ∧ (n = -1 → S.Room (a + 2)) := by
  obtain ⟨mid₁, mid₂, used', count, hcallee, hmethod, hall, hn⟩ := h
  have hcode₁ := hc (n := 1) hfree hroom hroom (by decide) (Or.inr rfl) hcallee
  -- behind the function stands the receiver, if there is one
  have hreceiver : ∃ k : Nat, used' = a + 1 + k ∧ k = (if method.isSome then 1 else 0) ∧
      S.Room used' ∧ Code S proper opened (loaded K a 1) mid₁ mid₂ (loaded K a (k + 1)) := by
    cases method with
    | none =>
      obtain ⟨rfl, rfl⟩ := hmethod
      exact ⟨0, rfl, rfl, hroom, .drop subset_rfl⟩
    | some m =>
      obtain ⟨hmethod, rfl⟩ := hmethod
      obtain ⟨hcode, hroom'⟩ := hmethod.codes (hfree.loaded (n := 1) (Nat.le_refl a))
        (Or.inr ⟨le_rfl, Or.inr (by omega)⟩)
      refine ⟨1, rfl, rfl, hroom', .seq hcode (.drop ?_)⟩
      rintro r (⟨hlt, hr⟩ | ⟨hge, hlt⟩)
      · exact Or.inl ⟨hlt, Or.inl ⟨hlt, hr⟩⟩
      · exact Or.inr ⟨hge, hlt⟩
  obtain ⟨k, hused, hk, hroom', hcode₂⟩ := hreceiver
  obtain ⟨hcode₃, hcount, hroom₃, hopen⟩ :=
    hall.codes hargs (hfree.loaded (show a ≤ used' by omega)) hroom'
  have hcount' : n = if count = allValues then allValues else count + k := by
    rw [hn, hk]
    cases method <;> simp
  unfold allValues at hcount' ⊢
  refine ⟨.seq hcode₁ (.seq hcode₂ (.seq hcode₃ (.drop ?_))), ?_, ?_, ?_⟩
  · rintro r (⟨hlt, hr⟩ | ⟨hge, hlt⟩)
    · exact Or.inl ⟨by omega, Or.inl ⟨hlt, hr⟩⟩
    · rcases Nat.lt_or_ge r used' with hlow | hhigh
      · exact Or.inl ⟨hlow, Or.inr ⟨hge, Or.inr (by omega)⟩⟩
      · refine Or.inr ⟨hhigh, ?_⟩
        split at hcount' <;> split at hlt <;> omega
  · split at hcount' <;> omega
  · refine hroom₃.mono ?_
    split at hcount' <;> omega
  · intro hneg
    refine (hopen ?_).mono (by omega)
    split at hcount' <;> omega

/-- A row of `n` registers as a count field gives it. -/
theorem Span.counted_succ {first : Nat} (h : -1 ≤ n) :
    Span.counted first (n + 1).toNat = ⟨first, if n < 0 then none else some n.toNat⟩ := by
  rw [Span.counted]
  congr 1
  split <;> split <;> first | rfl | omega | (congr 1; omega)

/-- The function and the arguments of a laid out call have been written. -/
theorem callRow_full (hn : -1 ≤ n) (ha : a < S.peak)
    (hroom : S.Room (a + 1 + n.toNat)) (hopen : n = -1 → S.Room (a + 2)) :
    ∀ s ∈ [Span.one a, .counted (a + 1) (n + 1).toNat],
      s.Full S (loaded K a (if n < 0 then allValues else n + 1)) := by
  rw [Span.counted_succ hn]
  have hpeak := hroom.2
  unfold allValues
  intro s hs
  simp only [List.mem_cons, List.not_mem_nil, or_false] at hs
  rcases hs with rfl | rfl
  · refine Span.full_one.mpr ⟨Or.inr ⟨le_rfl, ?_⟩, ha⟩
    split <;> omega
  · split
    · next hneg =>
      refine Span.full_none.mpr ⟨fun r hge => Or.inr ⟨by omega, by omega⟩, ?_⟩
      exact (hopen (by omega)).2
    · refine Span.full_some.mpr fun r hge hlt => ⟨Or.inr ⟨by omega, by omega⟩, by omega⟩

/-- Room for `n` values from a register on, as a count field gives them. -/
theorem counted_fits (hn : -1 ≤ n) (ha : a < S.peak)
    (hroom : S.Room (a + n.toNat)) : (Span.counted a (n + 1).toNat).Fits S := by
  rw [Span.counted_succ hn]
  have hpeak := hroom.2
  split
  · exact Span.fits_none.mpr ha
  · exact Span.fits_some.mpr fun r hge hlt => by omega

theorem mem_counted (hn : -1 ≤ n) {r : Nat} (hge : a ≤ r) (hlt : n < 0 ∨ (r : Int) < a + n) :
    r ∈ (Span.counted a (n + 1).toNat).toSet := by
  rw [Span.counted_succ hn]
  split
  · exact hge
  · exact Set.mem_Ico.mpr ⟨hge, show r < a + n.toNat by omega⟩

theorem CallIs.codes {method : Option String} (hc : callee.Codes proper)
    (hargs : ∀ p ∈ args, p.Codes proper) (hfree : S.Free opened K a) (hroom : S.Room (a + 1))
    (hroom' : S.Room (a + want.toNat))
    (hwant : -1 ≤ want) (h : CallIs S opened callee method args a want (a + 1) lo hi) :
    Code S proper opened K lo hi (loaded K a want) := by
  obtain ⟨n, mid, hlaid, hcode⟩ := h
  obtain ⟨hcode₁, hn, hroom₁, hopen⟩ := hlaid.codes hc hargs hfree hroom
  have hmax := hfree.limited.peak_le
  have hpeak := hroom'.2
  have hpeak₁ := hroom₁.2
  have ha : a < S.peak := hroom.2
  rw [countCode_eq hn (by omega), countCode_eq hwant (by omega)] at hcode
  have hadm : S.Admits .call a (n + 1).toNat (want + 1).toNat
      (loaded K a (if n < 0 then allValues else n + 1)) := by
    refine ⟨by omega, by omega, by omega, by simp, ?_, ?_, by simp, by simp⟩
    · exact callRow_full hn ha hroom₁ hopen
    · simpa using counted_fits hwant ha hroom'
  refine .seq hcode₁ (hadm.code hcode rfl fun r hr => ?_)
  rcases hr with ⟨hlt, hr⟩ | ⟨hge, hlt⟩
  · exact Or.inl ⟨Or.inl ⟨hlt, hr⟩, by simpa using hlt⟩
  · exact Or.inr ⟨_, List.mem_singleton_self _, mem_counted hwant hge hlt⟩

theorem vararg_codes (hS : S.Limited) (hroom : S.Room (a + 1)) (hroom' : S.Room (a + want.toNat))
    (hwant : -1 ≤ want) (hcode : S.Writes (.abc .vararg a (countCode want) 0) lo hi) :
    Code S proper opened K lo hi (loaded K a want) := by
  have hmax := hS.peak_le
  have ha : a < S.peak := hroom.2
  have hpeak := hroom'.2
  rw [countCode_eq hwant (by omega)] at hcode
  have hadm : S.Admits .vararg a (want + 1).toNat 0 K := by
    refine ⟨by omega, by omega, by omega, by simp, ?_, ?_, by simp, by simp⟩
    · simp
    · simpa using counted_fits hwant ha hroom'
  refine hadm.code hcode rfl fun r hr => ?_
  rcases hr with ⟨-, hr⟩ | ⟨hge, hlt⟩
  · exact Or.inl ⟨hr, by simp⟩
  · exact Or.inr ⟨_, List.mem_singleton_self _, mem_counted hwant hge hlt⟩

end LuaLowering
