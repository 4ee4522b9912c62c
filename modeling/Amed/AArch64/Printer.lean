import Amed.AArch64.Db
import Amed.Arm.Printer

/-!
# The AArch64 printer

`source/aarch64/printer.c`: the text of an instruction, with its mnemonic, its condition and its
arguments.

## Implementation notes

A print function is the list of what it does with the pointer of the printer.
-/

namespace Amed.AArch64

open Arm Bytes Printing

/-- The names of the AArch64 enumerations. -/
structure Names extends Arm.Names where
  mnemonic : List (EnumName 10)
  register : List (EnumName 5)
  pattern : List (EnumName 6)
  atOp : List (EnumName 7)
  dcOp : List (EnumName 8)
  icOp : List (EnumName 8)
  tlbiOp : List (EnumName 13)
  syncOp : List (EnumName 6)
  btiOp : List (EnumName 5)
  prfOp : List (EnumName 10)
  ctxOp : List (EnumName 5)

/-! ## Parts -/

/-- The letter of a lane, by its size. -/
def laneLetter : Nat → Option Char
  | 8 => some 'B'
  | 16 => some 'H'
  | 32 => some 'S'
  | 64 => some 'D'
  | 128 => some 'Q'
  | _ => none

def printLane (numberOfElements : Nat) (datatype : Datatype) : List Op :=
  match laneLetter (getDatatypeSize datatype) with
  | none => []
  | some sz =>
      .put '.' :: (if 1 < numberOfElements then [.format 3 (decimal numberOfElements)] else []) ++
        [.put sz]

def printPrd (zeroing : Bool) : List Op :=
  [.put '/', .format 3 (if zeroing then "Z".toList else "M".toList)]

section Printer

variable (names : Names)

def printShifter (a : Argument) : List Op :=
  [.put ',', .put ' ', .name names.shift a.shifter.type.code] ++
    if a.shifter.hasAmount then
      if a.printer.printAmountAsVl then [.format 10 " VL".toList]
      else [.format 10 (" #".toList ++ decimal a.shifter.amount)]
    else []

/-- The shifter of an argument that has one. -/
def printAnyShifter (a : Argument) : List Op :=
  if a.shifter.type.code ≠ 0 then printShifter names a else []

/-! ## Arguments -/

def printArgReg (a : Argument) : List Op :=
  .name names.register (a.get Cell.regValue) ::
    if a.attributes.zeroing then printPrd true
    else if a.attributes.merging then printPrd false
    else if a.attributes.isVector then printLane a.numberOfElements a.datatype
    else if a.attributes.hasIndex then
      printLane a.numberOfElements a.datatype ++ printIndex 3 (a.get Cell.regIndex)
    else printAnyShifter names a

def printArgImm (a : Argument) : List Op :=
  .put '#' :: printImm names.float (a.get Cell.imm) a.datatype ++ printAnyShifter names a

def printMemReg (reg addressSize : Nat) : List Op :=
  .name names.register reg ::
    if Register.z0 ≤ reg ∧ reg ≤ Register.z31 then
      [.put '.', .put (if addressSize = 32 then 'S' else 'D')]
    else []

def printMemOffset (a : Argument) : List Op :=
  if a.get Cell.memRegoff ≠ 0 then
    [.put ',', .put ' '] ++
      printMemReg names (a.get Cell.memRegoff) (a.get Cell.memAddressSize) ++
        printAnyShifter names a
  else if a.get Cell.memImmoffValue ≠ 0 then
    [.put ',', .put ' ', .put '#'] ++
      printImm names.float (a.get Cell.memImmoffValue)
        (.ofCode (a.get Cell.memImmoffDatatype)) ++
          printAnyShifter names a
  else []

def printArgMem (a : Argument) : List Op :=
  .put '[' :: printMemReg names (a.get Cell.memBase) (a.get Cell.memAddressSize) ++
    if a.attributes.isPostIndexed then .put ']' :: printMemOffset names a
    else
      printMemOffset names a ++ [.put ']'] ++
        if a.attributes.isPreIndexed then [.put '!'] else []

def printArgList (a : Argument) : List Op :=
  [.put '\x7b', .put ' '] ++
    printRegisters (a.get Cell.listCount)
      (fun i => .name names.register (a.get (Cell.listRegister i)) ::
        printLane a.numberOfElements a.datatype) ++
    [.put ' ', .put '\x7d'] ++
      if a.attributes.hasIndex then printIndex 3 (a.get Cell.listIndex) else []

def printArgEnum {n : Nat} (table : List (EnumName n)) (a : Argument) : List Op :=
  (if a.attributes.isRepresentable then [.name table (a.get Cell.token)]
    else printArgImm names a) ++
    if a.attributes.hasShifter && a.printer.printShifter then printShifter names a else []

/-- The text of `print_sysreg_encoding`. -/
def sysregText (a : Argument) : List Char :=
  "S".toList ++ decimal (a.get Cell.sysregOp0) ++ "_".toList ++ decimal (a.get Cell.sysregOp1) ++
    "_C".toList ++ signedDecimal ((a.get Cell.sysregCn : Int) - 1) ++
    "_C".toList ++ signedDecimal ((a.get Cell.sysregCm : Int) - 1) ++
    "_".toList ++ decimal (a.get Cell.sysregOp2)

def printSysregEncoding (a : Argument) : List Op := [.format 20 (sysregText a)]

/-- The cases of `amed_aarch64_print_insn`. -/
def printArg (a : Argument) : List Op :=
  match a.type with
  | .register => printArgReg names a
  | .sysregEncoding => printSysregEncoding a
  | .immediate | .label => printArgImm names a
  | .memory => printArgMem names a
  | .list => printArgList names a
  | .pattern => printArgEnum names names.pattern a
  | .atOp => printArgEnum names names.atOp a
  | .dcOp => printArgEnum names names.dcOp a
  | .icOp => printArgEnum names names.icOp a
  | .tlbiOp => printArgEnum names names.tlbiOp a
  | .syncOp => printArgEnum names names.syncOp a
  | .btiOp => printArgEnum names names.btiOp a
  | .prfOp => printArgEnum names names.prfOp a
  | .ctxOp => printArgEnum names names.ctxOp a
  | .cspace => printArgEnum names names.cspace a
  | .pspace => printArgEnum names names.pspace a
  | .barrier => printArgEnum names names.barrier a
  | .condition => printArgEnum names names.condition a
  | _ => []

def insnOps (f : Formatter) (insn : Insn) : List Op :=
  .name names.mnemonic insn.mnemonic ::
    (if insn.aarch64.condition ≠ 0 ∧ insn.aarch64.condition ≠ Condition.al then
      [.named names.condition insn.aarch64.condition 9 ".".toList []]
    else []) ++
    .put f.afterMnem :: printArgs f insn (printArg names)

/-- `amed_aarch64_print_insn`. -/
def printInsn (f : Formatter) (insn : Insn) (m : Memory) : Option (Int × Memory) :=
  print f.lowerCase (insnOps names f insn) m

/-! ## When the pieces fit -/

/-- The number of lanes has at most two digits where it is printed. -/
def LanePrints (a : Argument) : Prop :=
  laneLetter (getDatatypeSize a.datatype) ≠ none → a.numberOfElements < 100

def ShifterPrints (a : Argument) : Prop :=
  a.shifter.type.code < names.shift.length ∧
    (a.shifter.hasAmount = true → a.printer.printAmountAsVl = false → a.shifter.amount < 10 ^ 7)

def AnyShifterPrints (a : Argument) : Prop :=
  a.shifter.type.code ≠ 0 → ShifterPrints names a

def RegPrints (a : Argument) : Prop :=
  a.get Cell.regValue < names.register.length ∧
    (a.attributes.zeroing = false → a.attributes.merging = false →
      if a.attributes.isVector then LanePrints a
      else if a.attributes.hasIndex then LanePrints a ∧ a.get Cell.regIndex % 2 ^ 8 < 100
      else AnyShifterPrints names a)

def ArgImmPrints (a : Argument) : Prop :=
  ImmPrints names.float (a.get Cell.imm) a.datatype ∧ AnyShifterPrints names a

/-- The numbers of a memory argument have names and fit. -/
structure MemPrints (a : Argument) : Prop where
  base : a.get Cell.memBase < names.register.length
  regoff : a.get Cell.memRegoff ≠ 0 → a.get Cell.memRegoff < names.register.length
  immoff : a.get Cell.memRegoff = 0 → a.get Cell.memImmoffValue ≠ 0 →
    ImmPrints names.float (a.get Cell.memImmoffValue) (.ofCode (a.get Cell.memImmoffDatatype))
  shifter : a.get Cell.memRegoff ≠ 0 ∨ a.get Cell.memImmoffValue ≠ 0 → AnyShifterPrints names a

/-- The registers of a list have names, and its lanes and its index fit. -/
structure ListPrints (a : Argument) : Prop where
  registers : ∀ i < a.get Cell.listCount,
    a.get (Cell.listRegister i) < names.register.length ∧ LanePrints a
  index : a.attributes.hasIndex = true → a.get Cell.listIndex < 100

def EnumPrints {n : Nat} (table : List (EnumName n)) (a : Argument) : Prop :=
  (if a.attributes.isRepresentable then a.get Cell.token < table.length
    else ArgImmPrints names a) ∧
    (a.attributes.hasShifter = true → a.printer.printShifter = true → ShifterPrints names a)

/-- What an argument has to be like for every text of it to fit. -/
def ArgumentPrints (a : Argument) : Prop :=
  match a.type with
  | .register => RegPrints names a
  | .sysregEncoding => (sysregText a).length < 20
  | .immediate | .label => ArgImmPrints names a
  | .memory => MemPrints names a
  | .list => ListPrints names a
  | .pattern => EnumPrints names names.pattern a
  | .atOp => EnumPrints names names.atOp a
  | .dcOp => EnumPrints names names.dcOp a
  | .icOp => EnumPrints names names.icOp a
  | .tlbiOp => EnumPrints names names.tlbiOp a
  | .syncOp => EnumPrints names names.syncOp a
  | .btiOp => EnumPrints names names.btiOp a
  | .prfOp => EnumPrints names names.prfOp a
  | .ctxOp => EnumPrints names names.ctxOp a
  | .cspace => EnumPrints names names.cspace a
  | .pspace => EnumPrints names names.pspace a
  | .barrier => EnumPrints names names.barrier a
  | .condition => EnumPrints names names.condition a
  | _ => True

structure InsnPrints (insn : Insn) : Prop where
  mnemonic : insn.mnemonic < names.mnemonic.length
  condition : insn.aarch64.condition ≠ 0 → insn.aarch64.condition ≠ Condition.al →
    insn.aarch64.condition < names.condition.length
  arguments : ∀ i < insn.argumentCount, ArgumentPrints names (insn.arguments i)

variable {names}

theorem printLane_fits {a : Argument} :
    AllFit (printLane a.numberOfElements a.datatype) ↔ LanePrints a := by
  have hlength : (decimal a.numberOfElements).length < 3 ↔ a.numberOfElements < 100 :=
    Nat.lt_succ_iff.trans (decimal_length_le (by decide))
  rw [printLane, LanePrints]
  cases laneLetter (getDatatypeSize a.datatype) with
  | none => simp
  | some sz =>
      simp only [allFit_cons, allFit_append, allFit_ite, format_fits, put_fits, allFit_nil, hlength,
        implies_true, and_true, true_and, ne_eq, reduceCtorEq, not_false_eq_true, forall_const]
      omega

theorem printPrd_fits (zeroing : Bool) : AllFit (printPrd zeroing) := by
  cases zeroing <;> simp [printPrd, allFit_cons]

/-- A shifter fits where its type has a name and its amount at most seven digits. -/
theorem printShifter_fits {a : Argument} :
    AllFit (printShifter names a) ↔ ShifterPrints names a := by
  have hamount : (" #".toList ++ decimal a.shifter.amount).length < 10 ↔
      a.shifter.amount < 10 ^ 7 := by
    have hlength := @decimal_length_le a.shifter.amount 7 (by decide)
    have hhead : " #".toList.length = 2 := rfl
    rw [List.length_append, hhead, ← hlength]
    omega
  have hvl : " VL".toList.length < 10 := by decide
  rw [printShifter, ShifterPrints]
  simp only [allFit_append, allFit_cons, allFit_ite, name_fits, format_fits, put_fits, allFit_nil,
    hamount, hvl, implies_true, and_true, true_and, Bool.not_eq_true]

theorem printAnyShifter_fits {a : Argument} :
    AllFit (printAnyShifter names a) ↔ AnyShifterPrints names a := by
  rw [printAnyShifter, AnyShifterPrints, allFit_ite, printShifter_fits]
  simp

theorem printArgReg_fits {a : Argument} : AllFit (printArgReg names a) ↔ RegPrints names a := by
  have hindex := @printIndex_fits 3 (a.get Cell.regIndex) (by decide)
  rw [printArgReg, RegPrints, allFit_cons, name_fits]
  refine and_congr_right fun _ => ?_
  cases a.attributes.zeroing with
  | true => simp [printPrd_fits]
  | false =>
      cases a.attributes.merging with
      | true => simp [printPrd_fits]
      | false =>
          cases a.attributes.isVector with
          | true => simp [printLane_fits]
          | false =>
              cases a.attributes.hasIndex with
              | true => simpa [printLane_fits, allFit_append] using fun _ => hindex
              | false => simp [printAnyShifter_fits]

theorem printArgImm_fits {a : Argument} :
    AllFit (printArgImm names a) ↔ ArgImmPrints names a := by
  rw [printArgImm, ArgImmPrints, List.cons_append, allFit_cons, allFit_append, printImm_fits,
    printAnyShifter_fits]
  simp

theorem printMemReg_fits {reg addressSize : Nat} :
    AllFit (printMemReg names reg addressSize) ↔ reg < names.register.length := by
  rw [printMemReg, allFit_cons, name_fits]
  refine and_iff_left ?_
  split <;> simp [allFit_cons]

/-- A memory operand fits where its base, its offset and its shifter do. -/
theorem printArgMem_fits {a : Argument} : AllFit (printArgMem names a) ↔ MemPrints names a := by
  have hoffset : AllFit (printMemOffset names a) ↔
      (a.get Cell.memRegoff ≠ 0 → a.get Cell.memRegoff < names.register.length) ∧
        (a.get Cell.memRegoff = 0 → a.get Cell.memImmoffValue ≠ 0 →
          ImmPrints names.float (a.get Cell.memImmoffValue)
            (.ofCode (a.get Cell.memImmoffDatatype))) ∧
          (a.get Cell.memRegoff ≠ 0 ∨ a.get Cell.memImmoffValue ≠ 0 →
            AnyShifterPrints names a) := by
    rw [printMemOffset]
    by_cases hregoff : a.get Cell.memRegoff = 0
    · by_cases himmoff : a.get Cell.memImmoffValue = 0
      · simp [hregoff, himmoff]
      · simp [hregoff, himmoff, allFit_append, allFit_cons, printImm_fits, printAnyShifter_fits]
    · simp [hregoff, allFit_append, allFit_cons, printMemReg_fits, printAnyShifter_fits]
  have hrest : AllFit (if a.attributes.isPostIndexed then .put ']' :: printMemOffset names a
      else printMemOffset names a ++ [.put ']'] ++
        if a.attributes.isPreIndexed then [.put '!'] else []) ↔
      AllFit (printMemOffset names a) := by
    cases a.attributes.isPostIndexed <;> cases a.attributes.isPreIndexed <;>
      simp [allFit_cons, allFit_append]
  rw [printArgMem, List.cons_append, allFit_cons, allFit_append, printMemReg_fits, hrest, hoffset]
  constructor
  · rintro ⟨-, hbase, hregoff, himmoff, hshifter⟩
    exact ⟨hbase, hregoff, himmoff, hshifter⟩
  · intro h
    exact ⟨trivial, h.base, h.regoff, h.immoff, h.shifter⟩

/-- A register list fits where its registers and its index do. -/
theorem printArgList_fits {a : Argument} : AllFit (printArgList names a) ↔ ListPrints names a := by
  have hindex := @printIndex_fits 3 (a.get Cell.listIndex) (by decide)
  have hbyte : a.get Cell.listIndex % 2 ^ 8 = a.get Cell.listIndex :=
    Nat.mod_eq_of_lt (a.get_lt Cell.listIndex)
  rw [hbyte] at hindex
  rw [printArgList]
  simp only [allFit_append, allFit_cons, allFit_ite, printRegisters_fits, name_fits, printLane_fits,
    hindex, put_fits, allFit_nil, implies_true, and_true, true_and]
  exact ⟨fun h => ⟨h.1, h.2⟩, fun h => ⟨h.registers, h.index⟩⟩

/-- An enumeration without a name is printed as an immediate. -/
theorem printArgEnum_fits {n : Nat} {table : List (EnumName n)} {a : Argument} :
    AllFit (printArgEnum names table a) ↔ EnumPrints names table a := by
  rw [printArgEnum, EnumPrints, allFit_append]
  refine and_congr ?_ ?_
  · cases a.attributes.isRepresentable with
    | true => simp [allFit_cons, name_fits]
    | false => simp [printArgImm_fits]
  · rw [allFit_ite, printShifter_fits]
    simp

/-- An argument fits where what its type prints does. -/
theorem printArg_fits {a : Argument} :
    AllFit (printArg names a) ↔ ArgumentPrints names a := by
  rw [printArg, ArgumentPrints]
  cases a.type with
  | register => exact printArgReg_fits
  | sysregEncoding => exact allFit_cons.trans (and_iff_left allFit_nil)
  | immediate | label => exact printArgImm_fits
  | memory => exact printArgMem_fits
  | list => exact printArgList_fits
  | pattern | atOp | dcOp | icOp | tlbiOp | syncOp | btiOp | prfOp | ctxOp | cspace | pspace
  | barrier | condition => exact printArgEnum_fits
  | _ => exact iff_of_true allFit_nil trivial

/-- No text of the instruction is cut off exactly where every number fits. -/
theorem insnOps_fits {f : Formatter} {insn : Insn} :
    AllFit (insnOps names f insn) ↔ InsnPrints names insn := by
  have hcondition : (Op.named names.condition insn.aarch64.condition 9 ".".toList []).Fits ↔
      insn.aarch64.condition < names.condition.length := named_fits (by decide)
  rw [insnOps]
  simp only [List.cons_append, allFit_cons, allFit_append, allFit_ite, name_fits, hcondition,
    put_fits, printArgs_fits, printArg_fits, allFit_nil, implies_true, and_true, true_and, and_imp]
  exact ⟨fun h => ⟨h.1, h.2.1, h.2.2⟩, fun h => ⟨h.mnemonic, h.condition, h.arguments⟩⟩

/-! ## No null character is printed -/

theorem printLane_clean (numberOfElements : Nat) (datatype : Datatype) :
    Clean (printLane numberOfElements datatype) := by
  have hletter : ∀ size sz, laneLetter size = some sz → sz ≠ Char.ofNat 0 := by
    intro size sz h
    rw [laneLetter.eq_def] at h
    split at h <;> cases h <;> decide
  rw [printLane]
  cases hsz : laneLetter (getDatatypeSize datatype) with
  | none => exact clean_nil
  | some sz =>
      refine put_clean (by decide) (clean_append.mpr ⟨?_, ?_⟩)
      · exact clean_ite (format_clean (decimal_no_null _)) clean_nil
      · exact put_clean (hletter _ _ hsz) clean_nil

theorem printPrd_clean (zeroing : Bool) : Clean (printPrd zeroing) :=
  put_clean (by decide) (format_clean (by cases zeroing <;> decide))

theorem printShifter_clean (a : Argument) : Clean (printShifter names a) := by
  have hamount : Char.ofNat 0 ∉ " #".toList ++ decimal a.shifter.amount := by
    rw [List.mem_append, not_or]
    exact ⟨by decide, decimal_no_null _⟩
  refine clean_append.mpr ⟨put_clean (by decide) (put_clean (by decide) name_clean), ?_⟩
  exact clean_ite (clean_ite (format_clean (by decide)) (format_clean hamount)) clean_nil

theorem printAnyShifter_clean (a : Argument) : Clean (printAnyShifter names a) :=
  clean_ite (printShifter_clean a) clean_nil

theorem printArgReg_clean (a : Argument) : Clean (printArgReg names a) := by
  refine name_cons_clean (clean_ite (printPrd_clean true) (clean_ite (printPrd_clean false) ?_))
  refine clean_ite (printLane_clean _ _) (clean_ite ?_ (printAnyShifter_clean a))
  exact clean_append.mpr ⟨printLane_clean _ _, printIndex_clean _ _⟩

theorem printArgImm_clean (a : Argument) : Clean (printArgImm names a) :=
  put_clean (by decide)
    (clean_append.mpr ⟨printImm_clean _ _ _, printAnyShifter_clean a⟩)

theorem printMemReg_clean (reg addressSize : Nat) :
    Clean (printMemReg names reg addressSize) := by
  refine name_cons_clean (clean_ite (put_clean (by decide) (put_clean ?_ clean_nil)) clean_nil)
  split <;> decide

theorem printMemOffset_clean (a : Argument) : Clean (printMemOffset names a) := by
  have hcomma : Clean [.put ',', .put ' '] :=
    put_clean (by decide) (put_clean (by decide) clean_nil)
  have hsharp : Clean [.put ',', .put ' ', .put '#'] :=
    put_clean (by decide) (put_clean (by decide) (put_clean (by decide) clean_nil))
  refine clean_ite ?_ (clean_ite ?_ clean_nil)
  · exact clean_append.mpr ⟨clean_append.mpr ⟨hcomma, printMemReg_clean _ _⟩,
      printAnyShifter_clean a⟩
  · exact clean_append.mpr ⟨clean_append.mpr ⟨hsharp, printImm_clean _ _ _⟩,
      printAnyShifter_clean a⟩

theorem printArgMem_clean (a : Argument) : Clean (printArgMem names a) := by
  have hoffset : Clean (printMemOffset names a) := printMemOffset_clean a
  refine put_clean (by decide) (clean_append.mpr ⟨printMemReg_clean _ _, clean_ite ?_ ?_⟩)
  · exact put_clean (by decide) hoffset
  · refine clean_append.mpr ⟨clean_append.mpr ⟨hoffset, put_clean (by decide) clean_nil⟩, ?_⟩
    exact clean_ite (put_clean (by decide) clean_nil) clean_nil

theorem printArgList_clean (a : Argument) : Clean (printArgList names a) := by
  have hopen : Clean [.put '\x7b', .put ' '] :=
    put_clean (by decide) (put_clean (by decide) clean_nil)
  have hclose : Clean [.put ' ', .put '\x7d'] :=
    put_clean (by decide) (put_clean (by decide) clean_nil)
  refine clean_append.mpr ⟨clean_append.mpr ⟨clean_append.mpr ⟨hopen, ?_⟩, hclose⟩, ?_⟩
  · exact printRegisters_clean fun i => name_cons_clean (printLane_clean _ _)
  · exact clean_ite (printIndex_clean _ _) clean_nil

theorem printArgEnum_clean {n : Nat} (table : List (EnumName n)) (a : Argument) :
    Clean (printArgEnum names table a) :=
  clean_append.mpr ⟨clean_ite name_clean (printArgImm_clean a),
    clean_ite (printShifter_clean a) clean_nil⟩

theorem printSysregEncoding_clean (a : Argument) : Clean (printSysregEncoding a) := by
  refine format_clean ?_
  delta sysregText
  simp only [List.mem_append, not_or]
  exact ⟨⟨⟨⟨⟨⟨⟨⟨⟨by decide, decimal_no_null _⟩, by decide⟩, decimal_no_null _⟩, by decide⟩,
    signedDecimal_no_null _⟩, by decide⟩, signedDecimal_no_null _⟩, by decide⟩, decimal_no_null _⟩

/-- No argument has a null character in its text. -/
theorem printArg_clean (a : Argument) : Clean (printArg names a) := by
  rw [printArg]
  cases a.type with
  | register => exact printArgReg_clean a
  | sysregEncoding => exact printSysregEncoding_clean a
  | immediate | label => exact printArgImm_clean a
  | memory => exact printArgMem_clean a
  | list => exact printArgList_clean a
  | pattern | atOp | dcOp | icOp | tlbiOp | syncOp | btiOp | prfOp | ctxOp | cspace | pspace
  | barrier | condition => exact printArgEnum_clean _ a
  | _ => exact clean_nil

theorem insnOps_clean (f : Formatter) (insn : Insn) : Clean (insnOps names f insn) := by
  have hcondition : Clean [.named names.condition insn.aarch64.condition 9 ".".toList []] :=
    clean_singleton.mpr (named_no_null (by decide) List.not_mem_nil)
  refine name_cons_clean (clean_append.mpr ⟨clean_ite hcondition clean_nil, ?_⟩)
  exact put_clean f.afterMnem_ne_null (printArgs_clean printArg_clean)

/-- The mnemonic has a name, so the text of an instruction is not empty. -/
theorem insnOps_text_ne_nil {f : Formatter} {insn : Insn} (h : AllFit (insnOps names f insn)) :
    textOf (insnOps names f insn) ≠ [] :=
  textOf_ne_nil.mpr ⟨_, List.mem_cons_self,
    name_text_ne_nil (name_fits.mp (h _ List.mem_cons_self))⟩

/-- The length is returned and the text is made lower-case, unless lower case is asked for. -/
theorem printInsn_returnsLength {f : Formatter} {insn : Insn} (lowerCase : Bool) :
    ReturnsLength (fun lower => printInsn names { f with lowerCase := lower } insn) lowerCase ↔
      lowerCase = false ∧ InsnPrints names insn := by
  rw [← insnOps_fits (f := f)]
  exact returnsLength_iff (insnOps_clean f insn) insnOps_text_ne_nil lowerCase

end Printer

end Amed.AArch64
