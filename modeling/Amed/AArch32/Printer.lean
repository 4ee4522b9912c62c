import Amed.AArch32.Db
import Amed.Arm.Printer

/-!
# The AArch32 printer

`source/aarch32/printer.c`: the text of an instruction, with its mnemonic, its condition, its
qualifier, its datatypes and its arguments.

## Implementation notes

A print function is the list of what it does with the pointer of the printer. The array of the
datatypes is the list of its entries before the first empty one.
-/

namespace Amed.AArch32

open Arm Printing

/-- The names of the AArch32 enumerations. -/
structure Names extends Arm.Names where
  mnemonic : List (EnumName 10)
  register : List (EnumName 9)
  itOp : List (EnumName 5)
  syncOp : List (EnumName 6)

/-- `AMED_AARCH32_MNEMONIC_IT`. -/
def Mnemonic.it : Nat := 49

section Printer

variable (names : Names)

/-! ## Parts -/

/-- `print_shifter`. A register of 8 characters does not fit behind its blank. -/
def printShifter (shifter : Shifter) : List Op :=
  [.put ',', .put ' ', .name names.shift shifter.type.code] ++
    if shifter.hasAmount then [.format 10 (" #".toList ++ decimal shifter.amount)]
    else if shifter.hasRegister then [.named names.register shifter.amount 9 " ".toList []]
    else []

/-- The shifter of an argument that prints it. -/
def printAnyShifter (a : Argument) : List Op :=
  if a.printer.printShifter then printShifter names a.shifter else []

/-! ## Arguments -/

def printArgReg (a : Argument) : List Op :=
  .name names.register (a.get Cell.regValue) ::
    if a.attributes.hasIndex then printIndex 4 (a.get Cell.regIndex)
    else if a.printer.printShifter then printShifter names a.shifter
    else if a.attributes.writeBack then [.put '!']
    else []

def printArgImm (a : Argument) : List Op :=
  .put '#' :: printImm names.float (a.get Cell.imm) a.datatype ++ printAnyShifter names a

def printMemReg (reg : Nat) : List Op := [.name names.register reg]

/-- The sign of an offset that is subtracted. -/
def printSign (a : Argument) : List Op := if a.attributes.isAdding then [] else [.put '-']

def printMemOffset (a : Argument) : List Op :=
  if a.get Cell.memRegoff ≠ 0 then
    [.put ',', .put ' '] ++ printSign a ++ printMemReg names (a.get Cell.memRegoff) ++
      printAnyShifter names a
  else if a.get Cell.memImmoffValue ≠ 0 then
    [.put ',', .put ' ', .put '#'] ++ printSign a ++
      printImm names.float (a.get Cell.memImmoffValue)
        (.ofCode (a.get Cell.memImmoffDatatype)) ++
          printAnyShifter names a
  else []

def printArgMem (a : Argument) : List Op :=
  .put '[' :: printMemReg names (a.get Cell.memBase) ++
    if a.attributes.isPostIndexed then .put ']' :: printMemOffset names a
    else
      printMemOffset names a ++ [.put ']'] ++
        if a.attributes.isPreIndexed then [.put '!'] else []

def printArgList (a : Argument) : List Op :=
  [.put '\x7b'] ++
    printRegisters (a.get Cell.listCount)
      (fun i => [.name names.register (a.get (Cell.listRegister i))]) ++
    [.put '\x7d'] ++
      if a.attributes.hasIndex then printIndex 4 (a.get Cell.listIndex) else []

def printArgEnum {n : Nat} (table : List (EnumName n)) (a : Argument) : List Op :=
  if a.attributes.isRepresentable then [.name table (a.get Cell.token)] else printArgImm names a

def printArgAif (a : Argument) : List Op :=
  let aif := a.get Cell.aifValue
  if aif ≠ 0 then
    (if aif.testBit 2 then [.put 'A'] else []) ++ (if aif.testBit 1 then [.put 'I'] else []) ++
      if aif.testBit 0 then [.put 'F'] else []
  else [.format 4 "#0".toList]

/-- The cases of `amed_aarch32_print_insn`. -/
def printArg (a : Argument) : List Op :=
  match a.type with
  | .register => printArgReg names a
  | .immediate | .label => printArgImm names a
  | .memory => printArgMem names a
  | .list => printArgList names a
  | .aif => printArgAif a
  | .cspace => printArgEnum names names.cspace a
  | .pspace => printArgEnum names names.pspace a
  | .syncOp => printArgEnum names names.syncOp a
  | .barrier => printArgEnum names names.barrier a
  | .condition => printArgEnum names names.condition a
  | .endian => printArgEnum names names.endian a
  | _ => []

/-! ## Instructions -/

/-- One argument in the loop of `print_datatypes` that collects up to four datatypes. -/
def addDatatype (datatypes : List Nat) (a : Argument) : List Nat :=
  if a.datatype.code ≠ 0 ∧ a.printer.printDatatype = true ∧ a.datatype.code ∉ datatypes ∧
      datatypes.length < 4 then
    datatypes ++ [a.datatype.code]
  else datatypes

/-- The datatypes that are printed. -/
def collectDatatypes (insn : Insn) : List Nat :=
  ((List.range insn.argumentCount).map insn.arguments).foldl addDatatype []

def printDatatypes (insn : Insn) : List Op :=
  (collectDatatypes insn).map fun datatype => .named names.datatype datatype 10 ".".toList []

/-- What is printed behind the mnemonic: the operation of `IT`, or a condition. -/
def printSuffix (insn : Insn) : List Op :=
  if insn.mnemonic = Mnemonic.it then [.name names.itOp insn.aarch32.itOp]
  else if insn.aarch32.condition ≠ 0 ∧ insn.aarch32.condition ≠ Condition.al then
    [.name names.condition insn.aarch32.condition]
  else []

def printQualifier (ctx : Context) (insn : Insn) : List Op :=
  if ctx.machineMode = .thumb ∧ insn.length = 4 ∧ insn.aarch32.showQualifier = true then
    [.format 4 ".W".toList]
  else []

def insnOps (f : Formatter) (ctx : Context) (insn : Insn) : List Op :=
  .name names.mnemonic insn.mnemonic :: printSuffix names insn ++ printQualifier ctx insn ++
    printDatatypes names insn ++ .put f.afterMnem :: printArgs f insn (printArg names)

/-- `amed_aarch32_print_insn`. -/
def printInsn (f : Formatter) (ctx : Context) (insn : Insn) (m : Memory) : Option (Int × Memory) :=
  print f.lowerCase (insnOps names f ctx insn) m

/-! ## When the pieces fit -/

structure ShifterPrints (shifter : Shifter) : Prop where
  type : shifter.type.code < names.shift.length
  amount : shifter.hasAmount = true → shifter.amount < 10 ^ 7
  register : shifter.hasAmount = false → shifter.hasRegister = true →
    ∃ name, names.register[shifter.amount]? = some name ∧ name.text.length < 8

def AnyShifterPrints (a : Argument) : Prop :=
  a.printer.printShifter = true → ShifterPrints names a.shifter

def RegPrints (a : Argument) : Prop :=
  a.get Cell.regValue < names.register.length ∧
    (a.attributes.hasIndex = false → AnyShifterPrints names a)

def ArgImmPrints (a : Argument) : Prop :=
  ImmPrints names.float (a.get Cell.imm) a.datatype ∧ AnyShifterPrints names a

/-- The numbers of a memory argument have names and fit. -/
structure MemPrints (a : Argument) : Prop where
  base : a.get Cell.memBase < names.register.length
  regoff : a.get Cell.memRegoff ≠ 0 → a.get Cell.memRegoff < names.register.length
  immoff : a.get Cell.memRegoff = 0 → a.get Cell.memImmoffValue ≠ 0 →
    ImmPrints names.float (a.get Cell.memImmoffValue) (.ofCode (a.get Cell.memImmoffDatatype))
  shifter : a.get Cell.memRegoff ≠ 0 ∨ a.get Cell.memImmoffValue ≠ 0 → AnyShifterPrints names a

def EnumPrints {n : Nat} (table : List (EnumName n)) (a : Argument) : Prop :=
  if a.attributes.isRepresentable then a.get Cell.token < table.length else ArgImmPrints names a

/-- What an argument has to be like for every text of it to fit. -/
def ArgumentPrints (a : Argument) : Prop :=
  match a.type with
  | .register => RegPrints names a
  | .immediate | .label => ArgImmPrints names a
  | .memory => MemPrints names a
  | .list => ∀ i < a.get Cell.listCount, a.get (Cell.listRegister i) < names.register.length
  | .cspace => EnumPrints names names.cspace a
  | .pspace => EnumPrints names names.pspace a
  | .syncOp => EnumPrints names names.syncOp a
  | .barrier => EnumPrints names names.barrier a
  | .condition => EnumPrints names names.condition a
  | .endian => EnumPrints names names.endian a
  | _ => True

structure InsnPrints (insn : Insn) : Prop where
  mnemonic : insn.mnemonic < names.mnemonic.length
  itOp : insn.mnemonic = Mnemonic.it → insn.aarch32.itOp < names.itOp.length
  condition : insn.mnemonic ≠ Mnemonic.it → insn.aarch32.condition ≠ 0 →
    insn.aarch32.condition ≠ Condition.al → insn.aarch32.condition < names.condition.length
  datatypes : ∀ datatype ∈ collectDatatypes insn, datatype < names.datatype.length
  arguments : ∀ i < insn.argumentCount, ArgumentPrints names (insn.arguments i)

variable {names}

theorem printShifter_fits {shifter : Shifter} :
    AllFit (printShifter names shifter) ↔ ShifterPrints names shifter := by
  have hamount : (" #".toList ++ decimal shifter.amount).length < 10 ↔
      shifter.amount < 10 ^ 7 := by
    have hlength := @decimal_length_le shifter.amount 7 (by decide)
    have hhead : " #".toList.length = 2 := rfl
    rw [List.length_append, hhead, ← hlength]
    omega
  have hregister : (Op.named names.register shifter.amount 9 " ".toList []).Fits ↔
      ∃ name, names.register[shifter.amount]? = some name ∧ name.text.length < 8 := by
    rw [Op.named]
    cases names.register[shifter.amount]? with
    | none => simp [Op.Fits]
    | some name =>
        have hhead : " ".toList.length = 1 := rfl
        simp only [format_fits, List.length_append, hhead, List.length_nil, Option.some.injEq,
          exists_eq_left']
        omega
  rw [printShifter]
  simp only [allFit_append, allFit_cons, allFit_ite, name_fits, format_fits, put_fits, allFit_nil,
    hamount, hregister, implies_true, and_true, true_and, Bool.not_eq_true]
  exact ⟨fun h => ⟨h.1, h.2.1, h.2.2⟩, fun h => ⟨h.type, h.amount, h.register⟩⟩

theorem printAnyShifter_fits {a : Argument} :
    AllFit (printAnyShifter names a) ↔ AnyShifterPrints names a := by
  rw [printAnyShifter, AnyShifterPrints, allFit_ite, printShifter_fits]
  simp

theorem printArgReg_fits {a : Argument} : AllFit (printArgReg names a) ↔ RegPrints names a := by
  have hindex : AllFit (printIndex 4 (a.get Cell.regIndex)) :=
    (printIndex_fits (by decide)).mpr ((Nat.mod_lt _ (by decide)).trans (by decide))
  rw [printArgReg, RegPrints, AnyShifterPrints, allFit_cons, name_fits]
  refine and_congr_right fun _ => ?_
  cases a.attributes.hasIndex with
  | true => simp [hindex]
  | false =>
      cases a.printer.printShifter with
      | true => simp [printShifter_fits]
      | false => cases a.attributes.writeBack <;> simp [allFit_cons]

theorem printArgImm_fits {a : Argument} :
    AllFit (printArgImm names a) ↔ ArgImmPrints names a := by
  rw [printArgImm, ArgImmPrints, List.cons_append, allFit_cons, allFit_append, printImm_fits,
    printAnyShifter_fits]
  simp

theorem printMemReg_fits {reg : Nat} :
    AllFit (printMemReg names reg) ↔ reg < names.register.length := by
  rw [printMemReg, allFit_cons, name_fits]
  exact and_iff_left allFit_nil

theorem printSign_fits (a : Argument) : AllFit (printSign a) := by
  rw [printSign]
  split <;> simp [allFit_cons]

/-- A memory operand fits where its base, its offset and its shifter do. -/
theorem printArgMem_fits {a : Argument} : AllFit (printArgMem names a) ↔ MemPrints names a := by
  have hsign := printSign_fits a
  have hoffset : AllFit (printMemOffset names a) ↔
      (a.get Cell.memRegoff ≠ 0 → a.get Cell.memRegoff < names.register.length) ∧
        (a.get Cell.memRegoff = 0 → a.get Cell.memImmoffValue ≠ 0 →
          ImmPrints names.float (a.get Cell.memImmoffValue)
            (.ofCode (a.get Cell.memImmoffDatatype))) ∧
          (a.get Cell.memRegoff ≠ 0 ∨ a.get Cell.memImmoffValue ≠ 0 →
            AnyShifterPrints names a) := by
    rw [printMemOffset]
    by_cases hregoff : a.get Cell.memRegoff = 0
    · by_cases himmoff : a.get Cell.memImmoffValue = 0
      · simp [hregoff, himmoff]
      · simp [hregoff, himmoff, allFit_append, allFit_cons, printImm_fits, printAnyShifter_fits,
          hsign]
    · simp [hregoff, allFit_append, allFit_cons, printMemReg_fits, printAnyShifter_fits, hsign]
  have hrest : AllFit (if a.attributes.isPostIndexed then .put ']' :: printMemOffset names a
      else printMemOffset names a ++ [.put ']'] ++
        if a.attributes.isPreIndexed then [.put '!'] else []) ↔
      AllFit (printMemOffset names a) := by
    cases a.attributes.isPostIndexed <;> cases a.attributes.isPreIndexed <;>
      simp [allFit_cons, allFit_append]
  rw [printArgMem, List.cons_append, allFit_cons, allFit_append, printMemReg_fits, hrest, hoffset]
  constructor
  · rintro ⟨-, hbase, hregoff, himmoff, hshifter⟩
    exact ⟨hbase, hregoff, himmoff, hshifter⟩
  · intro h
    exact ⟨trivial, h.base, h.regoff, h.immoff, h.shifter⟩

/-- A register list fits where its registers have names. -/
theorem printArgList_fits {a : Argument} :
    AllFit (printArgList names a) ↔
      ∀ i < a.get Cell.listCount, a.get (Cell.listRegister i) < names.register.length := by
  have hindex : AllFit (printIndex 4 (a.get Cell.listIndex)) :=
    (printIndex_fits (by decide)).mpr ((Nat.mod_lt _ (by decide)).trans (by decide))
  rw [printArgList]
  simp only [allFit_append, allFit_cons, allFit_ite, printRegisters_fits, name_fits, hindex,
    put_fits, allFit_nil, implies_true, and_true, true_and]

/-- An enumeration without a name is printed as an immediate. -/
theorem printArgEnum_fits {n : Nat} {table : List (EnumName n)} {a : Argument} :
    AllFit (printArgEnum names table a) ↔ EnumPrints names table a := by
  rw [printArgEnum, EnumPrints]
  cases a.attributes.isRepresentable with
  | true => simp [allFit_cons, name_fits]
  | false => simp [printArgImm_fits]

theorem printArgAif_fits (a : Argument) : AllFit (printArgAif a) := by
  have hletter (p : Prop) [Decidable p] (c : Char) : AllFit (if p then [.put c] else []) := by
    split <;> simp [allFit_cons]
  rw [printArgAif]
  split
  · exact allFit_append.mpr ⟨allFit_append.mpr ⟨hletter _ _, hletter _ _⟩, hletter _ _⟩
  · simp [allFit_cons]

/-- An argument fits where what its type prints does. -/
theorem printArg_fits {a : Argument} :
    AllFit (printArg names a) ↔ ArgumentPrints names a := by
  rw [printArg, ArgumentPrints]
  cases a.type with
  | register => exact printArgReg_fits
  | immediate | label => exact printArgImm_fits
  | memory => exact printArgMem_fits
  | list => exact printArgList_fits
  | aif => exact iff_of_true (printArgAif_fits a) trivial
  | cspace | pspace | syncOp | barrier | condition | endian => exact printArgEnum_fits
  | _ => exact iff_of_true allFit_nil trivial

/-- The data types behind the mnemonic fit where all of them have names. -/
theorem printDatatypes_fits {insn : Insn} :
    AllFit (printDatatypes names insn) ↔
      ∀ datatype ∈ collectDatatypes insn, datatype < names.datatype.length := by
  rw [AllFit, printDatatypes, List.forall_mem_map]
  exact forall₂_congr fun datatype _ => named_fits (by decide)

/-- No text of the instruction is cut off exactly where every number fits. -/
theorem insnOps_fits {f : Formatter} {ctx : Context} {insn : Insn} :
    AllFit (insnOps names f ctx insn) ↔ InsnPrints names insn := by
  have hqualifier : AllFit (printQualifier ctx insn) := by
    rw [printQualifier]
    split <;> simp [allFit_cons]
  rw [insnOps]
  simp only [List.cons_append, allFit_cons, allFit_append, printSuffix, allFit_ite, name_fits,
    put_fits, hqualifier, printDatatypes_fits, printArgs_fits, printArg_fits, allFit_nil,
    implies_true, and_true, true_and, and_imp]
  constructor
  · rintro ⟨hmnemonic, ⟨⟨hitOp, hcondition⟩, hdatatypes⟩, harguments⟩
    exact ⟨hmnemonic, hitOp, hcondition, hdatatypes, harguments⟩
  · intro h
    exact ⟨h.mnemonic, ⟨⟨h.itOp, h.condition⟩, h.datatypes⟩, h.arguments⟩

/-! ## No null character is printed -/

theorem printShifter_clean (shifter : Shifter) : Clean (printShifter names shifter) := by
  have hamount : Char.ofNat 0 ∉ " #".toList ++ decimal shifter.amount := by
    rw [List.mem_append, not_or]
    exact ⟨by decide, decimal_no_null _⟩
  have hregister : Clean [.named names.register shifter.amount 9 " ".toList []] :=
    clean_singleton.mpr (named_no_null (by decide) List.not_mem_nil)
  refine clean_append.mpr ⟨put_clean (by decide) (put_clean (by decide) name_clean), ?_⟩
  exact clean_ite (format_clean hamount) (clean_ite hregister clean_nil)

theorem printAnyShifter_clean (a : Argument) : Clean (printAnyShifter names a) :=
  clean_ite (printShifter_clean a.shifter) clean_nil

theorem printArgReg_clean (a : Argument) : Clean (printArgReg names a) :=
  name_cons_clean (clean_ite (printIndex_clean _ _) (clean_ite (printShifter_clean a.shifter)
    (clean_ite (put_clean (by decide) clean_nil) clean_nil)))

theorem printArgImm_clean (a : Argument) : Clean (printArgImm names a) :=
  put_clean (by decide)
    (clean_append.mpr ⟨printImm_clean _ _ _, printAnyShifter_clean a⟩)

theorem printMemOffset_clean (a : Argument) : Clean (printMemOffset names a) := by
  have hcomma : Clean [.put ',', .put ' '] :=
    put_clean (by decide) (put_clean (by decide) clean_nil)
  have hsharp : Clean [.put ',', .put ' ', .put '#'] :=
    put_clean (by decide) (put_clean (by decide) (put_clean (by decide) clean_nil))
  have hsign : Clean (printSign a) := clean_ite clean_nil (put_clean (by decide) clean_nil)
  refine clean_ite ?_ (clean_ite ?_ clean_nil)
  · exact clean_append.mpr ⟨clean_append.mpr ⟨clean_append.mpr ⟨hcomma, hsign⟩, name_clean⟩,
      printAnyShifter_clean a⟩
  · exact clean_append.mpr ⟨clean_append.mpr ⟨clean_append.mpr ⟨hsharp, hsign⟩,
      printImm_clean _ _ _⟩, printAnyShifter_clean a⟩

theorem printArgMem_clean (a : Argument) : Clean (printArgMem names a) := by
  have hoffset : Clean (printMemOffset names a) := printMemOffset_clean a
  refine put_clean (by decide) (clean_append.mpr ⟨name_clean, clean_ite ?_ ?_⟩)
  · exact put_clean (by decide) hoffset
  · refine clean_append.mpr ⟨clean_append.mpr ⟨hoffset, put_clean (by decide) clean_nil⟩, ?_⟩
    exact clean_ite (put_clean (by decide) clean_nil) clean_nil

theorem printArgList_clean (a : Argument) : Clean (printArgList names a) := by
  have hopen : Clean [.put '\x7b'] := put_clean (by decide) clean_nil
  have hclose : Clean [.put '\x7d'] := put_clean (by decide) clean_nil
  refine clean_append.mpr ⟨clean_append.mpr ⟨clean_append.mpr ⟨hopen, ?_⟩, hclose⟩, ?_⟩
  · exact printRegisters_clean fun i => name_clean
  · exact clean_ite (printIndex_clean _ _) clean_nil

theorem printArgEnum_clean {n : Nat} (table : List (EnumName n)) (a : Argument) :
    Clean (printArgEnum names table a) := clean_ite name_clean (printArgImm_clean a)

theorem printArgAif_clean (a : Argument) : Clean (printArgAif a) := by
  have hletter (p : Prop) [Decidable p] {c : Char} (hc : c ≠ Char.ofNat 0) :
      Clean (if p then [.put c] else []) := clean_ite (put_clean hc clean_nil) clean_nil
  refine clean_ite (clean_append.mpr ⟨clean_append.mpr ⟨?_, ?_⟩, ?_⟩) (format_clean (by decide))
  all_goals exact hletter _ (by decide)

/-- No argument has a null character in its text. -/
theorem printArg_clean (a : Argument) : Clean (printArg names a) := by
  rw [printArg]
  cases a.type with
  | register => exact printArgReg_clean a
  | immediate | label => exact printArgImm_clean a
  | memory => exact printArgMem_clean a
  | list => exact printArgList_clean a
  | aif => exact printArgAif_clean a
  | cspace | pspace | syncOp | barrier | condition | endian => exact printArgEnum_clean _ a
  | _ => exact clean_nil

theorem printDatatypes_clean (insn : Insn) : Clean (printDatatypes names insn) := by
  have hname (datatype : Nat) : Clean [.named names.datatype datatype 10 ".".toList []] :=
    clean_singleton.mpr (named_no_null (by decide) List.not_mem_nil)
  rw [printDatatypes, ← List.flatMap_pure_eq_map]
  exact clean_flatMap fun datatype _ => hname datatype

theorem insnOps_clean (f : Formatter) (ctx : Context) (insn : Insn) :
    Clean (insnOps names f ctx insn) := by
  refine name_cons_clean (clean_append.mpr ⟨clean_append.mpr ⟨clean_append.mpr ⟨?_, ?_⟩, ?_⟩, ?_⟩)
  · exact clean_ite name_clean (clean_ite name_clean clean_nil)
  · exact clean_ite (format_clean (by decide)) clean_nil
  · exact printDatatypes_clean insn
  · exact put_clean f.afterMnem_ne_null (printArgs_clean printArg_clean)

/-- The mnemonic has a name, so the text of an instruction is not empty. -/
theorem insnOps_text_ne_nil {f : Formatter} {ctx : Context} {insn : Insn}
    (h : AllFit (insnOps names f ctx insn)) : textOf (insnOps names f ctx insn) ≠ [] :=
  textOf_ne_nil.mpr ⟨_, List.mem_cons_self,
    name_text_ne_nil (name_fits.mp (h _ List.mem_cons_self))⟩

/-- The length is returned and the text is made lower-case, unless lower case is asked for. -/
theorem printInsn_returnsLength {f : Formatter} {ctx : Context} {insn : Insn} (lowerCase : Bool) :
    ReturnsLength (fun lower => printInsn names { f with lowerCase := lower } ctx insn) lowerCase ↔
      lowerCase = false ∧ InsnPrints names insn := by
  rw [← @insnOps_fits names f ctx insn]
  exact returnsLength_iff (insnOps_clean f ctx insn) insnOps_text_ne_nil lowerCase

end Printer

end Amed.AArch32
