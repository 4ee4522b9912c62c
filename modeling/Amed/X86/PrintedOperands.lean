import Amed.X86.Excerpt
import Amed.X86.Printer

/-!
# The operands of a printed instruction

The operands are the texts of the arguments that are not suppressed, with a comma and a blank or a
tabulator between two of them.

## Implementation notes

The loop separates an argument from those before it by its index, so that an argument behind
suppressed ones is separated from nothing. A label has no text.
-/

namespace Amed.X86

open Bytes Printing

variable {names : Names}

/-! ## When the arguments fit -/

theorem printRegValue_fits {value : Nat} :
    AllFit (printRegValue names value) ↔ value < names.register.length := by
  rw [printRegValue, allFit_cons, name_fits]
  simp

theorem printArgReg_fits {a : Argument} :
    AllFit (printArgReg names a) ↔ a.get Cell.regValue < names.register.length := by
  have hsuffix : AllFit (if a.attributes.zeroing then [.format 4 "\x7bZ\x7d".toList]
      else if a.attributes.merging then [.format 4 "\x7bM\x7d".toList]
      else if a.printer.printIndex then printRegSwizzle a
      else []) := by
    split
    · simp [allFit_cons]
    · split
      · simp [allFit_cons]
      · split
        · exact printRegSwizzle_fits a
        · exact allFit_nil
  rw [printArgReg, allFit_append, printRegValue_fits]
  exact and_iff_left hsuffix

/-- The scale of an index register is printed as one digit. -/
theorem printIndex_fits {a : Argument} :
    AllFit (printIndex names a) ↔ a.get Cell.memRegoff < names.register.length ∧
      (a.printer.printShifter = true → a.shifter.amount < 10) := by
  have hamount : (decimal a.shifter.amount).length < 2 ↔ a.shifter.amount < 10 ^ 1 :=
    Nat.lt_succ_iff.trans (decimal_length_le (by decide))
  rw [printIndex, allFit_append, allFit_append, allFit_ite, allFit_ite, printRegValue_fits]
  simp [allFit_cons, hamount]

theorem printDisp_fits {a : Argument} :
    AllFit (printDisp a) ↔ HalfPrints (.ofCode (a.get Cell.memImmoffDatatype))
      (toSigned 64 (a.get Cell.memImmoffValue)) := by
  have hsign : AllFit (if (a.get Cell.memBase ≠ 0 ∨ a.get Cell.memRegoff ≠ 0) ∧
      0 ≤ toSigned 64 (a.get Cell.memImmoffValue) then [.put '+'] else []) := by
    split <;> simp [allFit_cons]
  rw [printDisp, allFit_append, printImmValue_fits]
  exact and_iff_right hsign

/-- A memory operand fits where its registers have names and its displacement is printed. -/
theorem printArgMem_fits {a : Argument} : AllFit (printArgMem names a) ↔ MemPrints names a := by
  have hvdatatype : (Op.named names.datatype a.datatype.code 10 "\x7b".toList "\x7d".toList).Fits ↔
      a.datatype.code < names.datatype.length := named_fits (by decide)
  rw [printArgMem]
  simp only [allFit_append, allFit_ite, allFit_cons, printSize_fits, printRegValue_fits,
    printIndex_fits, printDisp_fits, printBroadcasting_fits, hvdatatype, put_fits, allFit_nil,
    Bool.and_eq_true, decide_eq_true_eq, implies_true, true_and, and_true, and_imp, ne_eq, not_not]
  constructor
  · rintro ⟨⟨⟨⟨hsegment, hbase⟩, hregoff⟩, hdisp⟩, hvdatatype, hbroadcasting⟩
    exact ⟨hsegment, hbase, fun h => (hregoff h).1, fun h => (hregoff h).2, hdisp, hvdatatype,
      hbroadcasting⟩
  · intro h
    exact ⟨⟨⟨⟨h.segment, h.base⟩, fun hr => ⟨h.regoff hr, h.amount hr⟩⟩, h.disp⟩, h.vdatatype,
      h.broadcasting⟩

theorem printArgPtr_fits (a : Argument) : AllFit (printArgPtr a) := by
  have hsegment : (hex 4 (a.get Cell.ptrSegment)).length ≤ 4 :=
    (hex_length_le (by decide)).mpr ⟨Nat.le_refl 4, a.get_lt Cell.ptrSegment⟩
  have hoffset : (hex 4 (a.get Cell.ptrOffsetValue % 2 ^ 32)).length ≤ 8 :=
    (hex_length_le (by decide)).mpr ⟨by decide, Nat.mod_lt _ (by decide)⟩
  have hmiddle : ":".toList.length = 1 := rfl
  rw [printArgPtr, allFit_cons, format_fits]
  simp only [List.length_append, hmiddle, allFit_nil, and_true]
  omega

theorem printRounding_fits (sae : Bool) (value : Nat) : AllFit (printRounding sae value) := by
  have hname : (roundingName value).length < 4 := by
    rw [roundingName.eq_def]
    split <;> decide
  rw [printRounding]
  split
  · exact allFit_nil
  · cases sae <;> simp [allFit_cons, hname]

/-- An argument fits where what its type prints does. -/
theorem printArg_fits {insn : Insn} {a : Argument} :
    AllFit (printArg names insn a) ↔ ArgumentPrints names a := by
  have himm : AllFit (printArgImm a) ↔ HalfPrints a.datatype (toSigned 64 (a.get Cell.imm)) :=
    printImmValue_fits
  have hsae (text : List Char) (h : text.length < 6) (value : Bool) :
      AllFit (if value then [.format 6 text] else []) := by
    cases value <;> simp [allFit_cons, h]
  rw [printArg, ArgumentPrints]
  cases a.type with
  | register => exact printArgReg_fits
  | memory | address => exact printArgMem_fits
  | immediate => exact himm
  | ptr => exact iff_of_true (printArgPtr_fits a) trivial
  | rounding => exact iff_of_true (printRounding_fits _ _) trivial
  | sae | evh => exact iff_of_true (hsae _ (by decide) _) trivial
  | condition =>
      dsimp only
      rw [printArgEnum]
      split
      · rw [allFit_cons, name_fits]
        simp
      · exact himm
  | _ => exact iff_of_true allFit_nil trivial

theorem printPrefixes_fits (insn : Insn) : AllFit (printPrefixes insn) := by
  rw [printPrefixes, allFit_append]
  constructor
  · cases insn.x86.prefixFunctionality <;> simp [prefixName, allFit_cons]
  · split <;> simp [allFit_cons]

/-- One pass of the loop prints its operand unless that is suppressed. -/
theorem printPass_fits {f : Formatter} {insn : Insn} {i : Nat} :
    AllFit (printPass names f insn i) ↔ ((insn.arguments i).attributes.isSuppressed = false →
      ArgumentPrints names (insn.arguments i)) := by
  rw [printPass]
  split
  · rename_i hsuppressed
    simp [hsuppressed]
  · rename_i hvisible
    rw [allFit_append, printArg_fits]
    simp [hvisible, Formatter.separator_fits]

/-- No text of the instruction is cut off exactly where every number fits. -/
theorem insnOps_fits {f : Formatter} {insn : Insn} :
    AllFit (insnOps names f insn) ↔ InsnPrints names insn := by
  have hargs : AllFit (printArgs names f insn) ↔
      ∀ i < insn.argumentCount, (insn.arguments i).attributes.isSuppressed = false →
        ArgumentPrints names (insn.arguments i) := by
    simp only [← printPass_fits (f := f)]
    rw [printArgs, allFit_flatMap]
    simp only [List.mem_range]
  rw [insnOps, allFit_append, printHead, allFit_append, allFit_cons, name_fits]
  constructor
  · rintro ⟨⟨-, hmnemonic, -⟩, hrest⟩
    refine ⟨hmnemonic, ?_⟩
    split at hrest
    · rename_i hzero
      rw [hzero]
      exact fun i hi => absurd hi (Nat.not_lt_zero i)
    · exact hargs.mp (allFit_cons.mp hrest).2
  · intro h
    refine ⟨⟨printPrefixes_fits insn, h.mnemonic, allFit_nil⟩, ?_⟩
    split
    · exact allFit_nil
    · exact allFit_cons.mpr ⟨trivial, hargs.mpr h.arguments⟩

/-! ## No null character is printed -/

theorem printRegSwizzle_clean (a : Argument) : Clean (printRegSwizzle a) := by
  have hletters : ∀ i, Clean (swizzleLetters a i) := by
    intro i
    induction i with
    | zero => exact put_clean (by decide) clean_nil
    | succ i ih =>
        rw [swizzleLetters]
        split
        case h_5 => exact clean_nil
        all_goals exact put_clean (by decide) ih
  exact put_clean (by decide) (hletters 4)

theorem printSize_clean (size : Nat) : Clean (printSize size) := by
  rw [printSize, sizeName.eq_def]
  split
  · exact clean_nil
  · rename_i text h
    have htext : Char.ofNat 0 ∉ text := by
      revert h
      split <;> simp
      all_goals
        rintro rfl
        decide
    exact clean_cons.mpr ⟨htext, put_clean (by decide) clean_nil⟩

theorem printImmValue_clean (value : Int) (datatype : Datatype) :
    Clean (printImmValue value datatype) := by
  have hhead : Char.ofNat 0 ∉ "0x".toList := by decide
  have hhex (width n : Nat) : Char.ofNat 0 ∉ "0x".toList ++ hex width n := by
    rw [List.mem_append, not_or]
    exact ⟨hhead, hex_no_null width n⟩
  refine clean_append.mpr ⟨printMinus_clean datatype value, clean_singleton.mpr ?_⟩
  rw [formatImm.eq_def]
  split
  case h_1 | h_2 | h_3 => exact decimal_no_null _
  all_goals exact hhex _ _

theorem printArgReg_clean (a : Argument) : Clean (printArgReg names a) := by
  refine clean_append.mpr ⟨name_clean, ?_⟩
  split
  · exact format_clean (by decide)
  · split
    · exact format_clean (by decide)
    · split
      · exact printRegSwizzle_clean a
      · exact clean_nil

theorem printIndex_clean (a : Argument) : Clean (printIndex names a) :=
  clean_append.mpr ⟨clean_append.mpr ⟨clean_ite (put_clean (by decide) clean_nil) clean_nil,
    name_clean⟩, clean_ite (put_clean (by decide) (format_clean (decimal_no_null _))) clean_nil⟩

theorem printDisp_clean (a : Argument) : Clean (printDisp a) :=
  clean_append.mpr ⟨clean_ite (put_clean (by decide) clean_nil) clean_nil,
    printImmValue_clean _ _⟩

theorem printBroadcasting_clean (a : Argument) : Clean (printBroadcasting a) := by
  refine format_clean ?_
  simp only [List.mem_append, not_or]
  exact ⟨⟨⟨⟨by decide, decimal_no_null _⟩, by decide⟩, decimal_no_null _⟩, by decide⟩

theorem printArgMem_clean (a : Argument) : Clean (printArgMem names a) := by
  have hsegment : Clean (printRegValue names (a.get Cell.memSegment) ++ [.put ':']) :=
    clean_append.mpr ⟨name_clean, put_clean (by decide) clean_nil⟩
  have hvdatatype : Clean
      [.named names.datatype a.datatype.code 10 "\x7b".toList "\x7d".toList] :=
    clean_singleton.mpr (named_no_null (by decide) (by decide))
  rw [printArgMem]
  simp only [clean_append]
  refine ⟨⟨⟨⟨⟨⟨⟨?_, ?_⟩, ?_⟩, ?_⟩, ?_⟩, ?_⟩, ?_⟩, ?_⟩
  · exact clean_ite (printSize_clean _) clean_nil
  · exact clean_ite hsegment clean_nil
  · exact put_clean (by decide) clean_nil
  · exact clean_ite name_clean clean_nil
  · exact clean_ite (printIndex_clean a) clean_nil
  · exact clean_ite (printDisp_clean a) clean_nil
  · exact put_clean (by decide) clean_nil
  · exact clean_ite hvdatatype (clean_ite (printBroadcasting_clean a) clean_nil)

theorem printArgPtr_clean (a : Argument) : Clean (printArgPtr a) := by
  refine format_clean ?_
  simp only [List.mem_append, not_or]
  exact ⟨⟨hex_no_null _ _, by decide⟩, hex_no_null _ _⟩

theorem printRounding_clean (sae : Bool) (value : Nat) : Clean (printRounding sae value) := by
  have hname : Char.ofNat 0 ∉ roundingName value := by
    rw [roundingName.eq_def]
    split <;> decide
  rw [printRounding]
  refine clean_ite clean_nil (clean_append.mpr ⟨clean_append.mpr ⟨?_, ?_⟩, ?_⟩)
  · exact put_clean (by decide) (format_clean hname)
  · exact clean_ite (format_clean (by decide)) clean_nil
  · exact put_clean (by decide) clean_nil

theorem printArg_clean (insn : Insn) (a : Argument) : Clean (printArg names insn a) := by
  have himm : Clean (printArgImm a) := printImmValue_clean _ _
  rw [printArg]
  cases a.type with
  | register => exact printArgReg_clean a
  | memory | address => exact printArgMem_clean a
  | immediate => exact himm
  | ptr => exact printArgPtr_clean a
  | rounding => exact printRounding_clean _ _
  | sae | evh => exact clean_ite (format_clean (by decide)) clean_nil
  | condition => exact clean_ite name_clean himm
  | _ => exact clean_nil

theorem printPrefixes_clean (insn : Insn) : Clean (printPrefixes insn) := by
  refine clean_append.mpr ⟨?_, clean_ite (format_clean (by decide)) clean_nil⟩
  cases insn.x86.prefixFunctionality
  case none => exact clean_nil
  all_goals exact format_clean (by decide)

theorem insnOps_clean (f : Formatter) (insn : Insn) : Clean (insnOps names f insn) := by
  have hpass (i : Nat) : Clean (printPass names f insn i) :=
    clean_ite clean_nil (clean_append.mpr ⟨f.separator_clean i, printArg_clean insn _⟩)
  refine clean_append.mpr ⟨clean_append.mpr ⟨printPrefixes_clean insn, name_clean⟩, ?_⟩
  exact clean_ite clean_nil (put_clean f.afterMnem_ne_null (clean_flatMap fun i _ => hpass i))

theorem insnOps_text_ne_nil {f : Formatter} {insn : Insn} (h : AllFit (insnOps names f insn)) :
    textOf (insnOps names f insn) ≠ [] := by
  have hmem : Op.name names.mnemonic insn.mnemonic ∈ insnOps names f insn := by
    simp [insnOps, printHead]
  exact textOf_ne_nil.mpr ⟨_, hmem, name_text_ne_nil (name_fits.mp (h _ hmem))⟩

/-- The length is returned and the text is made lower-case, unless lower case is asked for. -/
theorem printInsn_returnsLength {f : Formatter} {insn : Insn} (lowerCase : Bool) :
    ReturnsLength (fun lower => printInsn names { f with lowerCase := lower } insn) lowerCase ↔
      lowerCase = false ∧ InsnPrints names insn := by
  rw [← insnOps_fits (f := f)]
  exact returnsLength_iff (insnOps_clean f insn) insnOps_text_ne_nil lowerCase

/-! ## The operands -/

section Operands

variable (names) (f : Formatter) (insn : Insn)

/-- The arguments that are not suppressed, by their index. -/
def visible : List Nat :=
  (List.range insn.argumentCount).filter fun i => !(insn.arguments i).attributes.isSuppressed

def argumentText (i : Nat) : List Char := textOf (printArg names insn (insn.arguments i))

/-- The texts of the arguments that are not suppressed, with separators between them. -/
def operands : List Char :=
  List.intercalate f.between ((visible insn).map (argumentText names insn))

/-- The text in the case that is asked for. -/
def cased (text : List Char) : List Char :=
  if f.lowerCase then text.map Char.toLower else text

/-- Every argument that is not suppressed has a text, and these texts are joined behind the
mnemonic. -/
structure PrintsOperands : Prop where
  texts : ∀ i ∈ visible insn, argumentText names insn i ≠ []
  joined : ∀ m, ∃ n m', printInsn names f insn m = some (n, m') ∧
    IsString m' (cased f (textOf (printHead names insn) ++
      if insn.argumentCount = 0 then [] else f.afterMnem :: operands names f insn))

end Operands

/-- The operands of a list of indices are printed one behind the other, with a separator in
front of each but index 0. -/
theorem operands_text {f : Formatter} {insn : Insn} {l : List Nat}
    (hl : l.Pairwise (· < ·)) :
    textOf (l.flatMap fun i => f.separator i ++ printArg names insn (insn.arguments i)) =
      (if l = [] ∨ 0 ∈ l then [] else f.between) ++
        List.intercalate f.between (l.map (argumentText names insn)) := by
  have hbetween {i : Nat} (hi : i ≠ 0) : textOf (f.separator i) = f.between := by
    rw [Formatter.separator, if_neg hi]
    rfl
  have htail (l : List Nat) (hpos : ∀ i ∈ l, i ≠ 0) :
      textOf (l.flatMap fun i => f.separator i ++ printArg names insn (insn.arguments i)) =
        (l.map (argumentText names insn)).flatMap (f.between ++ ·) := by
    induction l with
    | nil => rfl
    | cons i l ih =>
        obtain ⟨hi, hrest⟩ := List.forall_mem_cons.mp hpos
        rw [List.flatMap_cons, textOf_append, textOf_append, hbetween hi, ih hrest, List.map_cons,
          List.flatMap_cons]
        rfl
  cases l with
  | nil => rfl
  | cons i l =>
      obtain ⟨hfirst, -⟩ := List.pairwise_cons.mp hl
      have hrest := htail l fun j hj => Nat.ne_of_gt (Nat.zero_lt_of_lt (hfirst j hj))
      rw [List.flatMap_cons, textOf_append, textOf_append, hrest, List.map_cons, intercalate_cons]
      cases i with
      | zero =>
          rw [if_pos (Or.inr List.mem_cons_self)]
          rfl
      | succ i =>
          have hzero : ¬((i + 1) :: l = [] ∨ 0 ∈ (i + 1) :: l) := by
            rintro (h | h)
            · cases h
            · rcases List.mem_cons.mp h with h | h
              · cases h
              · exact absurd (hfirst 0 h) (Nat.not_lt_zero _)
          rw [if_neg hzero, hbetween (Nat.succ_ne_zero i), List.append_assoc]
          rfl

/-- The text of the loop: the operands, behind a separator where the first argument is suppressed
and a later one is not. -/
theorem printArgs_text {f : Formatter} {insn : Insn} :
    textOf (printArgs names f insn) =
      (if visible insn = [] ∨ 0 ∈ visible insn then [] else f.between) ++
        operands names f insn := by
  have hsorted : (visible insn).Pairwise (· < ·) := List.Pairwise.filter _ List.pairwise_lt_range
  have hloop : printArgs names f insn =
      (visible insn).flatMap fun i => f.separator i ++ printArg names insn (insn.arguments i) := by
    rw [printArgs, visible]
    induction List.range insn.argumentCount with
    | nil => rfl
    | cons i l ih =>
        rw [List.flatMap_cons, List.filter_cons, ih, printPass]
        cases (insn.arguments i).attributes.isSuppressed <;> rfl
  rw [hloop, operands_text hsorted]
  rfl

/-- The arguments that the printer writes something for. -/
def HasText (a : Argument) : Prop :=
  match a.type with
  | .register | .memory | .address | .immediate | .ptr | .condition => True
  | .rounding => a.get Cell.token ≤ 4
  | .sae | .evh => a.get Cell.token ≠ 0
  | _ => False

theorem printImmValue_text (value : Int) (datatype : Datatype) :
    textOf (printImmValue value datatype) ≠ [] := by
  refine textOf_ne_nil.mpr ⟨formatImm datatype (printedValue datatype value),
    List.mem_append_right _ List.mem_cons_self, ?_⟩
  rw [formatImm.eq_def]
  split
  case h_1 | h_2 | h_3 => exact decimal_ne_nil _
  all_goals simp [Op.text]

/-- Some types have no text, labels among them. -/
theorem printArg_text {insn : Insn} {a : Argument} (h : ArgumentPrints names a) :
    textOf (printArg names insn a) ≠ [] ↔ HasText a := by
  have himm : textOf (printArgImm a) ≠ [] := printImmValue_text _ _
  have hflag (text : List Char) (hne : text ≠ []) (value : Nat) :
      textOf (if decide (value ≠ 0) then [.format 6 text] else []) ≠ [] ↔ value ≠ 0 := by
    by_cases hvalue : value = 0 <;> simp [hvalue, textOf, Op.text, hne]
  rw [ArgumentPrints] at h
  rw [printArg, HasText]
  cases htype : a.type with
  | register =>
      rw [htype] at h
      exact iff_of_true (textOf_ne_nil.mpr ⟨_, List.mem_append_left _ List.mem_cons_self,
        name_text_ne_nil h⟩) trivial
  | memory | address =>
      refine iff_of_true (textOf_ne_nil.mpr ⟨.put '[', ?_, List.cons_ne_nil _ _⟩) trivial
      simp [printArgMem]
  | immediate => exact iff_of_true himm trivial
  | ptr =>
      refine iff_of_true (textOf_ne_nil.mpr ⟨_, List.mem_cons_self, ?_⟩) trivial
      simp [Op.text]
  | rounding =>
      dsimp only
      rw [printRounding]
      split
      · rename_i hvalue
        simp [textOf, hvalue]
      · rename_i hvalue
        exact iff_of_true (textOf_ne_nil.mpr ⟨.put '\x7b', by simp, List.cons_ne_nil _ _⟩)
          (Nat.le_of_not_lt hvalue)
  | sae => exact hflag "\x7bSAE\x7d".toList (by decide) _
  | evh => exact hflag "\x7bEH\x7d".toList (by decide) _
  | condition =>
      rw [htype] at h
      refine iff_of_true ?_ trivial
      dsimp only at h ⊢
      rw [printArgEnum]
      split
      · rename_i hrepresentable
        rw [if_pos hrepresentable] at h
        exact textOf_ne_nil.mpr ⟨_, List.mem_cons_self, name_text_ne_nil h⟩
      · exact himm
  | _ => exact iff_of_false (not_not.mpr rfl) not_false

/-- An operand is visible if it is not suppressed. -/
theorem mem_visible {insn : Insn} {i : Nat} :
    i ∈ visible insn ↔
      i < insn.argumentCount ∧ (insn.arguments i).attributes.isSuppressed = false := by
  rw [visible, List.mem_filter, List.mem_range, Bool.not_eq_true']

theorem cased_length (f : Formatter) (text : List Char) : (cased f text).length = text.length := by
  rw [cased]
  split
  · exact List.length_map _
  · rfl

/-- What an instruction leaves in the buffer. -/
theorem printInsn_text {f : Formatter} {insn : Insn} (h : InsnPrints names insn) (m : Memory) :
    ∃ n m', printInsn names f insn m = some (n, m') ∧
      IsString m' (cased f (textOf (printHead names insn) ++
        if insn.argumentCount = 0 then []
        else f.afterMnem :: textOf (printArgs names f insn))) := by
  have htext : textOf (insnOps names f insn) = textOf (printHead names insn) ++
      if insn.argumentCount = 0 then [] else f.afterMnem :: textOf (printArgs names f insn) := by
    rw [insnOps, textOf_append]
    split <;> rfl
  obtain ⟨m', hprint, hstring⟩ :=
    print_of_allFit (insnOps_fits.mpr h) (insnOps_clean f insn) f.lowerCase m
  rw [htext] at hprint hstring
  exact ⟨_, m', hprint, hstring⟩

/-- Where the operands are printed as the texts of the arguments that are not suppressed. -/
theorem printsOperands_iff (names : Names) (f : Formatter) (insn : Insn) :
    PrintsOperands names f insn ↔
      InsnPrints names insn ∧ (∀ i ∈ visible insn, 0 ∈ visible insn) ∧
        ∀ i ∈ visible insn, HasText (insn.arguments i) := by
  have htexts (h : InsnPrints names insn) :
      (∀ i ∈ visible insn, argumentText names insn i ≠ []) ↔
        ∀ i ∈ visible insn, HasText (insn.arguments i) := by
    refine forall₂_congr fun i hi => printArg_text ?_
    obtain ⟨hlt, hvisible⟩ := mem_visible.mp hi
    exact h.arguments i hlt hvisible
  constructor
  · intro h
    obtain ⟨n, m', hprint, hstring⟩ := h.joined fun _ => Char.ofNat 0
    have hfit := insnOps_fits.mp (allFit_of_print hprint)
    refine ⟨hfit, fun i hi => ?_, (htexts hfit).mp h.texts⟩
    by_contra hzero
    obtain ⟨n', m'', hprint', hstring'⟩ := printInsn_text (f := f) hfit fun _ => Char.ofNat 0
    rw [hprint] at hprint'
    obtain ⟨-, rfl⟩ := Prod.mk.inj (Option.some.inj hprint')
    -- the separator in front makes the text longer
    have hlength := congrArg List.length (hstring.unique hstring')
    have hcount : insn.argumentCount ≠ 0 := Nat.ne_of_gt (Nat.zero_lt_of_lt (mem_visible.mp hi).1)
    have hsome : ¬(visible insn = [] ∨ 0 ∈ visible insn) :=
      not_or.mpr ⟨List.ne_nil_of_mem hi, hzero⟩
    have hbetween : f.between.length = 2 := rfl
    rw [cased_length, cased_length, if_neg hcount, if_neg hcount, printArgs_text,
      if_neg hsome] at hlength
    simp only [List.length_append, List.length_cons, hbetween] at hlength
    omega
  · rintro ⟨hfit, hfirst, hhas⟩
    refine ⟨(htexts hfit).mpr hhas, fun m => ?_⟩
    obtain ⟨n, m', hprint, hstring⟩ := printInsn_text (f := f) hfit m
    have hleading : visible insn = [] ∨ 0 ∈ visible insn := by
      rcases List.eq_nil_or_concat' (visible insn) with hnil | ⟨l, i, hl⟩
      · exact Or.inl hnil
      · exact Or.inr (hfirst i (by simp [hl]))
    rw [printArgs_text, if_pos hleading, List.nil_append] at hstring
    exact ⟨n, m', hprint, hstring⟩

/-! ## A short jump -/

namespace Excerpt

/-- `JMP` with a displacement of one byte (EB), outside 64-bit mode. Every other opcode is a
miss. -/
def jmpTables : Db :=
  { tables with
    lookup := fun index hashcode =>
      if index = 0xeb && !hashcode.getLsbD 23 then 174 * 2 ^ 16 + 318 else 0
    encodings := fun
      | 174 => { isa := 94, page := 59, categories := [71, 7, 75, 59], extension := 10 }
      | i => encodings i
    templates := fun
      | 318 => { iform := 189, bitdiffs := 22, arguments := 469 }
      | i => templates i
    arguments := fun
      | 469 =>
          [.rel { datatype := .s8, symbol := .other, size := 8, hasEncodedin := true, value := 16 },
            .reg { read := true, write := true, suppressed := true, value := 240 }]
      | i => arguments i
    bitdiffs := fun
      | 22 => ⟨0x00000000, 0x00870000⟩
      | i => bitdiffs i
    iform2mnem := fun
      | 189 => 90
      | i => iform2mnem i }

def jmpName : EnumName 19 := ⟨"JMP".toList, by decide, by decide, by decide⟩

/-- Tables of names that are long enough for the mnemonic. -/
def jmpNames : Names where
  datatype := []
  condition := []
  shift := []
  endian := []
  barrier := []
  cspace := []
  pspace := []
  mnemonic := List.replicate 91 jmpName
  register := []
  comparisonPredicate := []

/-- The bytes EB 00 in 32-bit mode. -/
def jmpContext : Context := contextOf .mode32 [0xeb, 0x00] 2

end Excerpt

open Excerpt in
/-- `JMP` with a displacement of 0: nothing is printed for the label. -/
theorem not_printsOperands_jmp :
    ¬∀ (names : Names) (f : Formatter) (db : Db) (ctx : Context) (stale : Internal) (insn : Insn),
      (decodeInsn db ctx stale insn).1 = true →
        PrintsOperands names f (decodeInsn db ctx stale insn).2 := by
  intro h
  have hprints := h jmpNames ⟨false, false, false⟩ jmpTables jmpContext default default
    (by decide +kernel)
  have hvisible : 0 ∈ visible (decodeInsn jmpTables jmpContext default default).2 := by
    decide +kernel
  exact hprints.texts 0 hvisible (by decide +kernel)

end Amed.X86
