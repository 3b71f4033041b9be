import Mathlib.Data.List.Nodup
import LuaLowering.Proofs.Flow.Integrity

/-!
# Listings determine code

Two canonical words with the same text are the same. Their operations are, because names
are distinct and padded to one width, and so are the numbers shown, because none of them
has a blank in it. A word that holds no operation is shown as a number to base sixteen,
from which it can be read back.

Everything that is compiled is canonical, and so two functions of which the listings show
the same instructions have the same code.
-/

namespace LuaLowering

/-! ## Texts -/

namespace Text

/-- Text up to a character and the rest, if the character comes first in the rest. -/
theorem append_inj_of_head {c : Char} {xs ys ss ts : List Char} (hxs : c ∉ xs) (hys : c ∉ ys)
    (hss : ∀ d ∈ ss.head?, d = c) (hts : ∀ d ∈ ts.head?, d = c) (h : xs ++ ss = ys ++ ts) :
    xs = ys ∧ ss = ts := by
  -- whichever is longer would have to hold the character
  rcases List.append_eq_append_iff.mp h with ⟨more, rfl, rfl⟩ | ⟨more, rfl, rfl⟩
  · cases more with
    | nil => exact ⟨(List.append_nil xs).symm, rfl⟩
    | cons d rest =>
      obtain rfl := hss d rfl
      exact absurd (List.mem_append_right xs List.mem_cons_self) hys
  · cases more with
    | nil => exact ⟨List.append_nil ys, rfl⟩
    | cons d rest =>
      obtain rfl := hts d rfl
      exact absurd (List.mem_append_right ys List.mem_cons_self) hxs

/-- Words with a blank before each can be told apart. -/
theorem flatMap_blank_inj {xs ys : List (List Char)} (hxs : ∀ x ∈ xs, ' ' ∉ x)
    (hys : ∀ y ∈ ys, ' ' ∉ y) (h : xs.flatMap (' ' :: ·) = ys.flatMap (' ' :: ·)) : xs = ys := by
  have hhead : ∀ zs : List (List Char), ∀ d ∈ (zs.flatMap (' ' :: ·)).head?, d = ' ' := by
    intro zs d hd
    cases zs with
    | nil => cases hd
    | cons z rest => exact (Option.some.inj hd).symm
  induction xs generalizing ys with
  | nil =>
    cases ys with
    | nil => rfl
    | cons y rest => cases h
  | cons x xs ih =>
    cases ys with
    | nil => cases h
    | cons y ys =>
      obtain ⟨hx, hxs'⟩ := List.forall_mem_cons.mp hxs
      obtain ⟨hy, hys'⟩ := List.forall_mem_cons.mp hys
      rw [List.flatMap_cons, List.flatMap_cons, List.cons_append, List.cons_append] at h
      obtain ⟨rfl, hrest⟩ :=
        append_inj_of_head hx hy (hhead xs) (hhead ys) (List.cons.inj h).2
      rw [ih hxs' hys' hrest]

/-- The digits of a number and its sign are what its text is made of. -/
theorem notMem_natText {c : Char} (hc : c.isDigit = false) (n : Nat) : c ∉ n.repr.toList := by
  intro h
  rw [Nat.toList_repr] at h
  rw [Nat.isDigit_of_mem_toDigits (by decide) (by decide) h] at hc
  cases hc

theorem blank_notMem_intText (n : Int) : ' ' ∉ n.repr.toList := by
  rw [Int.repr_eq_if]
  split
  · exact notMem_natText (by decide) _
  · rw [String.toList_append, List.mem_append]
    rintro (h | h)
    · exact absurd h (by decide)
    · exact notMem_natText (by decide) _ h

theorem natText_inj {m n : Nat} (h : m.repr = n.repr) : m = n := by
  have hdigits := congrArg (fun s => Nat.ofDigitChars 10 s.toList 0) h
  simpa only [Nat.toList_repr, Nat.ofDigitChars_ten_toDigits] using hdigits

theorem intText_inj {m n : Int} (h : m.repr = n.repr) : m = n := by
  have hsign : ∀ (k l : Nat), k.repr ≠ "-" ++ l.repr := by
    intro k l heq
    refine notMem_natText (c := '-') (by decide) k ?_
    rw [heq, String.toList_append]
    exact List.mem_append_left _ (by decide)
  rw [Int.repr_eq_if, Int.repr_eq_if] at h
  split at h <;> split at h
  · have hnat := natText_inj h
    omega
  · exact absurd h (hsign _ _)
  · exact absurd h.symm (hsign _ _)
  · have hnat := natText_inj ((String.append_right_inj _).mp h)
    omega

/-! ### Numbers to base sixteen -/

/-- The value of a digit. -/
def hexDigit (c : Char) : Nat := ((List.range 16).find? (·.digitChar == c)).getD 0

/-- The number that digits stand for, the highest first. -/
def hexValue (digits : List Char) : Nat := digits.foldl (fun n c => 16 * n + hexDigit c) 0

theorem hexDigit_digitChar {n : Nat} (h : n < 16) : hexDigit n.digitChar = n := by
  have hall : ∀ k : Fin 16, hexDigit k.val.digitChar = k := by decide
  exact hall ⟨n, h⟩

theorem hexValue_toDigits (n : Nat) : hexValue (Nat.toDigits 16 n) = n := by
  induction n using Nat.strongRecOn with
  | ind n ih =>
    rw [Nat.toDigits_eq_if (by decide)]
    split
    · next hlt => exact (Nat.zero_add _).trans (hexDigit_digitChar hlt)
    · next hle =>
      rw [hexValue, List.foldl_append, ← hexValue, ih (n / 16) (by omega), List.foldl_cons,
        List.foldl_nil, hexDigit_digitChar (Nat.mod_lt _ (by decide))]
      omega

theorem hexValue_zeros (k : Nat) (digits : List Char) :
    hexValue (List.replicate k '0' ++ digits) = hexValue digits := by
  induction k with
  | zero => rfl
  | succ k ih => exact ih

end Text

namespace Instruction

open Text

variable {i j : Instruction} {op op' : Opcode}

theorem hexText_inj {width m n : Nat} (h : hexText width m = hexText width n) : m = n := by
  have hlist := congrArg String.toList h
  rw [hexText, hexText, String.toList_ofList, String.toList_ofList] at hlist
  have hvalue := congrArg hexValue hlist
  rwa [hexValue_zeros, hexValue_zeros, hexValue_toDigits, hexValue_toDigits] at hvalue

/-! ### Names -/

/-- The name of an operation as a listing shows it. -/
def nameText (op : Opcode) : List Char := (padRight 9 op.name).toList

theorem mem_all (op : Opcode) : op ∈ Opcode.all := List.mem_of_getElem? op.ofNumber?_number

theorem length_nameText (op : Opcode) : (nameText op).length = 9 := by
  have hall : ∀ o ∈ Opcode.all, (nameText o).length = 9 := by decide +kernel
  exact hall op (mem_all op)

/-- The text of no operation looks like that of a word without one. -/
theorem head?_nameText (op : Opcode) : (nameText op).head? ≠ some '<' := by
  have hall : ∀ o ∈ Opcode.all, (nameText o).head? ≠ some '<' := by decide +kernel
  exact hall op (mem_all op)

theorem nameText_inj (h : nameText op = nameText op') : op = op' := by
  have hnodup : (Opcode.all.map nameText).Nodup := by decide +kernel
  exact List.inj_on_of_nodup_map hnodup (mem_all op) (mem_all op') h

/-! ### Whole texts -/

theorem text_of_none (h : i.opcode? = none) :
    i.text = "<bad 0x" ++ hexText 8 i.word.toNat ++ ">" := by
  rw [text, h]

theorem toList_text (h : i.opcode? = some op) : i.text.toList =
    nameText op ++ (op.shown.map fun s => (i.shownNumber s).repr.toList).flatMap (' ' :: ·) := by
  rw [text, h]
  dsimp only
  rw [String.toList_append, String.toList_join, List.flatMap_map, List.flatMap_map]
  simp only [String.toList_append]
  rfl

/-- Words without an operation are told by their numbers. -/
theorem eq_of_text_none (hi : i.opcode? = none) (hj : j.opcode? = none) (h : i.text = j.text) :
    i = j := by
  have hlist := congrArg String.toList h
  rw [text_of_none hi, text_of_none hj, String.toList_append, String.toList_append,
    String.toList_append, String.toList_append] at hlist
  have hhex := List.append_cancel_left (List.append_cancel_right hlist)
  have hword := hexText_inj (String.toList_inj.mp hhex)
  cases i
  cases j
  exact congrArg Instruction.mk (UInt32.toNat_inj.mp hword)

theorem text_ne_of_none (hi : i.opcode? = none) (hj : j.opcode? = some op) : i.text ≠ j.text := by
  intro h
  have hlist := congrArg (fun s : String => s.toList.head?) h
  have hne : nameText op ≠ [] := by
    intro hnil
    have hlen := length_nameText op
    rw [hnil] at hlen
    cases hlen
  rw [text_of_none hi, toList_text hj, List.head?_append_of_ne_nil _ hne, String.append_assoc,
    String.toList_append] at hlist
  exact head?_nameText op hlist.symm

/-- Words of which the texts are the same have the same operation and show the same numbers. -/
theorem shownNumber_eq_of_text (hi : i.opcode? = some op) (hj : j.opcode? = some op')
    (h : i.text = j.text) : op = op' ∧ ∀ s ∈ op.shown, i.shownNumber s = j.shownNumber s := by
  have hlist := congrArg String.toList h
  rw [toList_text hi, toList_text hj] at hlist
  obtain ⟨hname, hrest⟩ := List.append_inj hlist
    ((length_nameText op).trans (length_nameText op').symm)
  obtain rfl := nameText_inj hname
  have hblank : ∀ (k : Instruction), ∀ x ∈ op.shown.map fun s => (k.shownNumber s).repr.toList,
      ' ' ∉ x := by
    intro k x hx
    obtain ⟨s, -, rfl⟩ := List.mem_map.mp hx
    exact blank_notMem_intText _
  have hnumbers := List.map_inj_left.mp (flatMap_blank_inj (hblank i) (hblank j) hrest)
  exact ⟨rfl, fun s hs => intText_inj (String.toList_inj.mp (hnumbers s hs))⟩

/-- Canonical words are told by their texts. -/
theorem Canonical.eq_of_text (hi : i.Canonical) (hj : j.Canonical) (h : i.text = j.text) :
    i = j := by
  cases hop : i.opcode? with
  | none =>
    cases hop' : j.opcode? with
    | none => exact eq_of_text_none hop hop' h
    | some op' => exact absurd h (text_ne_of_none hop hop')
  | some op =>
    cases hop' : j.opcode? with
    | none => exact absurd h.symm (text_ne_of_none hop' hop)
    | some op' =>
      obtain ⟨rfl, hnumbers⟩ := shownNumber_eq_of_text hop hop' h
      exact hi.eq_of_shownNumber hj hop hop' hnumbers

end Instruction

/-! ## Lines of a listing -/

namespace Listing

/-- How a source line is shown. -/
def lineMark (p : Prototype) (pc : Nat) : String :=
  if p.lineOf pc = 0 then "-" else (p.lineOf pc).repr

theorem bracket_notMem_lineMark (p : Prototype) (pc : Nat) : ']' ∉ (lineMark p pc).toList := by
  rw [lineMark]
  split
  · decide
  · exact Text.notMem_natText (by decide) _

theorem toList_instruction (p : Prototype) (pc : Nat) (i : Instruction) :
    (instruction p pc i).toList =
      '\t' :: ((pc + 1).repr.toList ++ '\t' :: '[' ::
        ((lineMark p pc).toList ++ ']' :: '\t' :: i.text.toList)) := by
  simp only [instruction, lineMark, String.toList_append, List.append_assoc]
  rfl

/-- Lines at one position that are the same show the same instruction. -/
theorem text_eq_of_instruction {p q : Prototype} {pc : Nat} {i j : Instruction}
    (h : instruction p pc i = instruction q pc j) : i.text = j.text := by
  have hlist := congrArg String.toList h
  rw [toList_instruction, toList_instruction] at hlist
  have hmark := List.append_cancel_left (List.cons.inj hlist).2
  obtain ⟨-, hrest⟩ := Text.append_inj_of_head (bracket_notMem_lineMark p pc)
    (bracket_notMem_lineMark q pc) (by simp) (by simp) (List.cons.inj (List.cons.inj hmark).2).2
  exact String.toList_inj.mp (List.cons.inj (List.cons.inj hrest).2).2

end Listing

namespace Prototype

/-- The lines of a listing that show the instructions of a function: those behind its header. -/
def instructionLines (p : Prototype) : List String :=
  ((Listing.own p).drop 3).take p.code.size

theorem instructionLines_eq (p : Prototype) :
    p.instructionLines = p.code.toList.mapIdx (Listing.instruction p) := by
  have hlen : p.code.size = (p.code.toList.mapIdx (Listing.instruction p)).length := by
    rw [List.length_mapIdx, Array.length_toList]
  rw [instructionLines, Listing.own, List.append_assoc, List.append_assoc, List.append_assoc, hlen]
  exact List.take_left

/-- Functions of canonical words that have the same lines have the same code. -/
theorem code_eq_of_instructionLines {p q : Prototype} (hp : ∀ i ∈ p.code, i.Canonical)
    (hq : ∀ i ∈ q.code, i.Canonical) (h : p.instructionLines = q.instructionLines) :
    p.code = q.code := by
  rw [instructionLines_eq, instructionLines_eq] at h
  have hline : ∀ pc : Nat, p.code[pc]?.map (Listing.instruction p pc) =
      q.code[pc]?.map (Listing.instruction q pc) := by
    intro pc
    have hpc := congrArg (·[pc]?) h
    simpa using hpc
  refine Array.ext_getElem? fun pc => ?_
  have hpc := hline pc
  cases hi : p.code[pc]? with
  | none =>
    rw [hi, Option.map_none] at hpc
    exact (Option.map_eq_none_iff.mp hpc.symm).symm
  | some i =>
    rw [hi, Option.map_some] at hpc
    obtain ⟨j, hj, heq⟩ := Option.map_eq_some_iff.mp hpc.symm
    have htext := Listing.text_eq_of_instruction heq
    rw [hj, (hq j (Array.mem_of_getElem? hj)).eq_of_text (hp i (Array.mem_of_getElem? hi)) htext]

/-- A function of a chunk that was compiled within the limits of the machine. -/
def Compiled (q : Prototype) : Prop :=
  ∃ block o p, o.registerLimit ≤ frameRegisters ∧ o.constantLimit ≤ operandConstants ∧
    compile block o = .ok p ∧ q ∈ p.family

theorem Compiled.canonical {q : Prototype} (h : q.Compiled) : ∀ i ∈ q.code, i.Canonical := by
  intro i hi
  obtain ⟨block, o, p, hregs, hconsts, hp, hq⟩ := h
  obtain ⟨S, names, P, Q, rfl, rfl, hcomp⟩ := compile_composes hregs hconsts hp q hq
  obtain ⟨pc, hpc⟩ := Array.mem_iff_getElem?.mp hi
  obtain ⟨K, hdo⟩ := hcomp.does hpc
  exact hdo.canonical

/-- The listing determines the instructions. Canonical words with one text are one word, all
that is compiled is canonical, and so compiled functions with the same instruction lines have
the same code. -/
theorem listing_determines_code :
    (∀ i j : Instruction, i.Canonical → j.Canonical → i.text = j.text → i = j) ∧
    (∀ q : Prototype, q.Compiled → ∀ i ∈ q.code, i.Canonical) ∧
    (∀ p q : Prototype, p.Compiled → q.Compiled → p.instructionLines = q.instructionLines →
      p.code = q.code) :=
  ⟨fun _ _ hi hj => hi.eq_of_text hj, fun _ hq => hq.canonical,
    fun _ _ hp hq => code_eq_of_instructionLines hp.canonical hq.canonical⟩

/-- Chunks that differ in the name of a local show the same instructions. -/
theorem listing_determines_code_of_renamed :
    let block (x : String) : Block := ⟨[.declare [x] [.integer 7] 1], some [.name x], 2⟩
    ∃ p q, compile (block "x") {} = .ok p ∧ compile (block "y") {} = .ok q ∧
      p.instructionLines = q.instructionLines ∧ (∀ i ∈ p.code, i.Canonical) ∧ p.code = q.code := by
  intro block
  obtain ⟨p, hp⟩ := compile_of_isOk (block "x") {} (by decide +kernel)
  obtain ⟨q, hq⟩ := compile_of_isOk (block "y") {} (by decide +kernel)
  have hlines : (compile (block "x") {}).map instructionLines =
      (compile (block "y") {}).map instructionLines := by decide +kernel
  rw [hp, hq] at hlines
  have hsame := Except.ok.inj hlines
  have hfamily : ∀ r : Prototype, r ∈ r.family := fun r => by
    cases r
    rw [family]
    exact List.mem_cons_self
  have hcompiled : ∀ {x r}, compile (block x) {} = .ok r → r.Compiled := fun {_ r} hr =>
    ⟨_, {}, r, le_rfl, le_rfl, hr, hfamily r⟩
  obtain ⟨-, hcanonical, hcode⟩ := listing_determines_code
  exact ⟨p, q, hp, hq, hsame, hcanonical p (hcompiled hp),
    hcode p q (hcompiled hp) (hcompiled hq) hsame⟩

end Prototype

end LuaLowering
