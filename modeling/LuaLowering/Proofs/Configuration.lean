import LuaLowering.Proofs.Lockstep
import LuaLowering.Proofs.Sequence.Function

/-!
# What the options decide

Two of the options have no say in the code that is written. Stripping leaves tables out
of the finished functions, and doing that afterwards comes to the same. The limit on
registers decides whether a chunk compiles and not what becomes of it: the frame sizes
in the outcome tell under which limits the chunk compiles at all.

Both are read off two compilations in step, one pairing of options for each.
-/

namespace LuaLowering

/-! ## Stripping -/

mutual

/-- A function without what only a debugger reads: the lines of its code, its locals and
the names of its upvalues, and likewise for the functions inside. -/
def Prototype.stripped (p : Prototype) : Prototype :=
  match p with
  | ⟨source, first, last, params, more, slots, code, constants, upvalues, protos, _, _⟩ =>
    ⟨source, first, last, params, more, slots, code, constants,
      upvalues.map ({ · with name := "" }), Prototype.strippedAll protos, #[], []⟩

/-- The functions of a list, each stripped. -/
def Prototype.strippedAll : List Prototype → List Prototype
  | [] => []
  | p :: rest => p.stripped :: Prototype.strippedAll rest

end

theorem Prototype.strippedAll_eq_map (ps : List Prototype) :
    Prototype.strippedAll ps = ps.map Prototype.stripped := by
  induction ps with
  | nil => rw [strippedAll, List.map_nil]
  | cons p rest ih => rw [strippedAll, ih, List.map_cons]

/-- Compiling once in full and once stripped. -/
def Pairing.stripping (o : Options) : Pairing where
  low := o.withStrip false
  high := o.withStrip true
  image := Prototype.stripped
  constantLimit := rfl
  limit := le_rfl
  finish d r hpeak := by
    rw [Draft.finish, Draft.finish, Prototype.stripped, Prototype.strippedAll_eq_map]
    show Prototype.mk _ _ _ _ _ (.ofNat (max r.peak 2)) _ _ _ _ _ _ = _
    rw [hpeak, List.map_map]
    show Prototype.mk _ _ _ _ _ _ _ _ _ (d.nested.map Prototype.stripped).toList _ _ = _
    rw [Array.toList_map]
    rfl

/-- Stripping while compiling is stripping afterwards, and it neither causes an error nor
changes one. -/
theorem compile_strip (b : Block) (o : Options) :
    compile b (o.withStrip true) = (compile b (o.withStrip false)).map Prototype.stripped := by
  rcases compile_pairing (.stripping o) b with h | ⟨hlt, -⟩
  · exact h
  · exact absurd hlt (Nat.lt_irrefl _)

/-! ## The limit on registers -/

/-- Compiling under two limits on registers. -/
def Pairing.limits (o : Options) {m₁ m₂ : Nat} (h : m₁ ≤ m₂) : Pairing where
  low := { o with registerLimit := m₁ }
  high := { o with registerLimit := m₂ }
  image := id
  constantLimit := rfl
  limit := h
  finish d r hpeak := by
    rw [Array.map_id, Draft.finish, Draft.finish]
    show Prototype.mk _ _ _ _ _ (.ofNat (max r.peak 2)) _ _ _ _ _ _ = _
    rw [hpeak]
    rfl

/-- The largest frame of a function and those inside it. -/
def Prototype.largestFrame (p : Prototype) : Nat :=
  (p.family.map (·.maxStackSize.toNat)).foldr max 0

theorem Prototype.largestFrame_le_iff {p : Prototype} {n : Nat} :
    p.largestFrame ≤ n ↔ ∀ q ∈ p.family, q.maxStackSize.toNat ≤ n := by
  unfold Prototype.largestFrame
  induction p.family with
  | nil => simp
  | cons q rest ih => rw [List.map_cons, List.foldr_cons, Nat.max_le, ih, List.forall_mem_cons]

/-- Frames are within the limit, two registers apart that every frame has. -/
theorem largestFrame_le {b : Block} {o : Options} {p : Prototype}
    (hregs : o.registerLimit ≤ frameRegisters) (h : compile b o = .ok p) :
    p.largestFrame ≤ max o.registerLimit 2 := by
  refine Prototype.largestFrame_le_iff.mpr fun q hq => ?_
  obtain ⟨params, body, S, rfl, rfl, hwritten⟩ : ∃ params body, q.CodeOf o params body := by
    rcases compile_family_codeOf hregs h q hq with ⟨-, hcode⟩ | ⟨f, -, hcode⟩
    · exact ⟨_, _, hcode⟩
    · exact ⟨_, _, hcode⟩
  obtain ⟨P, Q, -, -, -, -, -, -, -, -, hfits⟩ := hwritten
  have hpeak : S.peak ≤ S.options.registerLimit := hfits.limit ▸ S.draft.registers.peak_le
  calc (UInt8.ofNat (max S.peak 2)).toNat
      ≤ max S.peak 2 := by rw [UInt8.toNat_ofNat']; exact Nat.mod_le _ _
    _ ≤ max S.options.registerLimit 2 := by omega

theorem two_le_largestFrame {b : Block} {o : Options} {p : Prototype}
    (hregs : o.registerLimit ≤ frameRegisters) (h : compile b o = .ok p) :
    2 ≤ p.largestFrame := by
  obtain ⟨d, rfl, -, hwritten⟩ := compile_written hregs h
  have hpeak : d.registers.peak ≤ 255 := hwritten.peak_le hregs
  have hsize : (d.finish o).maxStackSize.toNat = max d.registers.peak 2 :=
    UInt8.toNat_ofNat_of_lt' (show max d.registers.peak 2 < 256 by omega)
  have hself : d.finish o ∈ (d.finish o).family := by
    rw [Draft.finish, Prototype.family]
    exact List.mem_cons_self
  have hle := Prototype.largestFrame_le_iff.mp le_rfl _ hself
  omega

section

variable {b : Block} {o : Options} {m₁ m₂ : Nat} {p : Prototype}

/-- A higher limit changes nothing unless the lower one was the obstacle. -/
theorem compile_raiseLimit (b : Block) (o : Options) (h : m₁ ≤ m₂) :
    (∃ limit line, compile b { o with registerLimit := m₁ } =
        .error (.rejected (.registersExhausted limit line))) ∨
      compile b { o with registerLimit := m₂ } = compile b { o with registerLimit := m₁ } := by
  rcases compile_pairing (.limits o h) b with hsame | ⟨-, hstop, -⟩
  · exact Or.inr (hsame.trans (congrFun Except.map_id _))
  · exact Or.inl hstop

/-- What compiles still does under a higher limit. -/
theorem compile_ok_of_le (h : m₁ ≤ m₂) (hp : compile b { o with registerLimit := m₁ } = .ok p) :
    compile b { o with registerLimit := m₂ } = .ok p := by
  rcases compile_raiseLimit b o h with ⟨limit, line, hstop⟩ | hsame
  · rw [hp] at hstop
    cases hstop
  · exact hsame.trans hp

/-- It does under a lower one that its frames fit. -/
theorem compile_ok_of_ge (h : m₁ ≤ m₂) (hfits : m₂ ≤ frameRegisters)
    (hp : compile b { o with registerLimit := m₂ } = .ok p) (hframe : p.largestFrame ≤ m₁) :
    compile b { o with registerLimit := m₁ } = .ok p := by
  rcases compile_pairing (.limits o h) b with hsame | ⟨-, -, hexceeds⟩
  · exact (congrFun Except.map_id _).symm.trans (hsame.symm.trans hp)
  · obtain ⟨q, hq, hlt⟩ := hexceeds hfits p hp
    exact absurd (Prototype.largestFrame_le_iff.mp hframe q hq) (Nat.not_le_of_lt hlt)

/-- The limit on registers decides whether a chunk compiles and nothing else. What a limit
leads to, other than running out of registers, any higher one leads to as well. A function
that a limit leads to is what every lower one leads to that its frames fit. So its largest
frame is the least limit, of two registers at least, under which the chunk compiles. -/
theorem compile_registerLimit (b : Block) (o : Options) {m₁ m₂ : Nat} (h : m₁ ≤ m₂)
    (hfits : m₂ ≤ frameRegisters) :
    ((∃ limit line, compile b { o with registerLimit := m₁ } =
        .error (.rejected (.registersExhausted limit line))) ∨
      compile b { o with registerLimit := m₂ } = compile b { o with registerLimit := m₁ }) ∧
    ∀ p, compile b { o with registerLimit := m₂ } = .ok p →
      ((∀ q ∈ p.family, q.maxStackSize.toNat ≤ m₁) →
        compile b { o with registerLimit := m₁ } = .ok p) ∧
      IsLeast {m | 2 ≤ m ∧ ∃ p', compile b { o with registerLimit := m } = .ok p'}
        p.largestFrame := by
  refine ⟨compile_raiseLimit b o h, fun p hp => ⟨fun hframes => ?_, ⟨?_, ?_⟩, fun m hm => ?_⟩⟩
  · exact compile_ok_of_ge h hfits hp (Prototype.largestFrame_le_iff.mpr hframes)
  · exact two_le_largestFrame hfits hp
  · rcases Nat.le_total p.largestFrame m₂ with hle | hle
    · exact ⟨p, compile_ok_of_ge hle hfits hp le_rfl⟩
    · exact ⟨p, compile_ok_of_le hle hp⟩
  · obtain ⟨htwo, p', hp'⟩ := hm
    rcases Nat.le_total m m₂ with hle | hle
    · obtain rfl : p' = p := Except.ok.inj ((compile_ok_of_le hle hp').symm.trans hp)
      exact Nat.max_eq_left htwo ▸ largestFrame_le (Nat.le_trans hle hfits) hp'
    · exact Nat.le_trans (largestFrame_le hfits hp) (Nat.max_le.mpr ⟨hle, htwo⟩)

/-- A function of three registers inside a chunk of one. -/
theorem compile_registerLimit_of_nested :
    let add : FunctionBody :=
      ⟨["x", "y"], false, ⟨[], some [.binary .add (.name "x") (.name "y")], 1⟩, 1, 1⟩
    let block : Block := ⟨[.declareFunction "f" add], none, 1⟩
    3 ≤ 5 ∧ 5 ≤ frameRegisters ∧ ∃ p, compile block { registerLimit := 5 } = .ok p ∧
      compile block { registerLimit := 3 } = .ok p ∧
      IsLeast {m | 2 ≤ m ∧ ∃ p', compile block { registerLimit := m } = .ok p'} 3 := by
  intro add block
  have hthree : (3 : Nat) ≤ 5 := by decide
  have hfive : 5 ≤ frameRegisters := by decide
  obtain ⟨p, hp⟩ := compile_of_isOk block { registerLimit := 5 } (by decide +kernel)
  have hlargest : p.largestFrame = 3 := by
    have hrun : (compile block { registerLimit := 5 }).toOption.map Prototype.largestFrame =
        some 3 := by decide +kernel
    rw [hp] at hrun
    exact Option.some.inj hrun
  obtain ⟨hlower, hleast⟩ := (compile_registerLimit block {} hthree hfive).2 p hp
  refine ⟨hthree, hfive, p, hp, hlower ?_, hlargest ▸ hleast⟩
  exact Prototype.largestFrame_le_iff.mp (Nat.le_of_eq hlargest)

end

end LuaLowering
