import Mathlib.Tactic.Ring
import Mathlib.Data.List.Infix
import Amed.Generator.Enum

/-!
# The names in the generated tables

`process_template` names the form of a template after its mnemonic and its arguments and hangs the
mnemonic on the name. `generate_iform2mnem_map` writes the table that leads from the number of a
form to the number of its mnemonic. The encodings and the registers are numbered as they come, with
`NONE` in front of them.

## Implementation notes

An enumeration only gets texts from here. A reference to one of its items is the text of the item.
The fields of an argument are texts, as `=~` reads them. The strings of C have `\0` behind them.
-/

namespace Amed.Generator

open Amed.Numbering

/-! ## The name of a form -/

/-- What `get_argument_iform` reads of an argument; `reg` is there for the arguments of ARM that
keep their register apart. -/
structure FormArgument where
  type : List Char
  size : List Char
  symbol : List Char
  kind : List Char
  reg : Option (List Char)
  deriving DecidableEq, Repr

/-- The generator of an architecture. -/
inductive Architecture
  | x86 | arm
  deriving DecidableEq, Repr

/-- `%reg2iform` and `%size2iform` of `Generator::X86`. -/
def x86Reg2iform : List (List Char × List Char) :=
  [("GPR".toList, "r".toList), ("MMX".toList, "mx".toList), ("FP".toList, "f".toList),
    ("XMM".toList, "x".toList), ("YMM".toList, "y".toList), ("ZMM".toList, "z".toList),
    ("BND".toList, "b".toList), ("DR".toList, "dbg".toList), ("CR".toList, "cntrl".toList)]

def x86Size2iform : List (List Char × List Char) :=
  [("8".toList, "b".toList), ("16".toList, "w".toList), ("32".toList, "d".toList),
    ("64".toList, "q".toList), ("128".toList, "x".toList), ("256".toList, "y".toList),
    ("512".toList, "z".toList)]

/-- `%reg2iform` of `Generator::ARM`. -/
def armReg2iform : List (List Char × List Char) :=
  [("GPR32".toList, "r".toList), ("GPR64".toList, "r".toList), ("SIMD8".toList, "b".toList),
    ("SIMD16".toList, "h".toList), ("SIMD32".toList, "s".toList), ("SIMD64".toList, "d".toList),
    ("SIMD128".toList, "q".toList), ("VECREG".toList, "v".toList), ("PRDREG".toList, "k".toList),
    ("SVEREG".toList, "z".toList)]

/-- `=~` with a plain text. -/
def FormArgument.hasType (a : FormArgument) (text : String) : Bool :=
  a.type.tails.any text.toList.isPrefixOf

/-- `get_argument_iform` of `Generator::X86`. -/
def x86ArgumentIform (a : FormArgument) : List Char :=
  if a.hasType "REG" then (x86Reg2iform.lookup a.symbol).getD []
  else if a.hasType "MEM" then
    -- the dot of the pattern stands in brackets
    if a.symbol = "VM.".toList then "vm.".toList
    else 'm' :: (x86Size2iform.lookup a.size).getD []
  else if a.hasType "IMM" then 'i' :: (x86Size2iform.lookup a.size).getD []
  else []

/-- `get_argument_iform` of `Generator::ARM`. -/
def armArgumentIform (a : FormArgument) : List Char :=
  if a.hasType "REG" then (armReg2iform.lookup (a.reg.getD a.kind)).getD []
  else if a.hasType "LIST" then ['l']
  else if a.hasType "MEM" then ['m']
  else if a.hasType "IMM" then ['i']
  else []

def getArgumentIform : Architecture → FormArgument → List Char
  | .x86 => x86ArgumentIform
  | .arm => armArgumentIform

/-- The members of a template that its form is named after. -/
structure FormTemplate where
  mnem : List Char
  ast : List FormArgument
  deriving DecidableEq, Repr

/-- `get_iform`. -/
def getIform (arch : Architecture) (t : FormTemplate) : List Char :=
  Enum.uc t.mnem ++ ((t.ast.map (getArgumentIform arch)).filter (· ≠ [])).eraseDups.flatten

/-! ## The mnemonic of a form -/

/-- A text without small letters in front. -/
def capitals (text : List Char) : List Char := text.takeWhile fun c => !c.isLower

theorem isLower_toUpper (c : Char) : c.toUpper.isLower = false := by
  unfold Char.toUpper Char.isLower
  split
  · rename_i h
    have h' := h
    simp only [Bool.and_eq_false_iff, decide_eq_false_iff_not, ge_iff_le, UInt32.le_iff_toNat_le,
      not_le] at h' ⊢
    left
    change (c.val + ('A'.val - 'a'.val)).toNat < 'a'.val.toNat
    rw [UInt32.toNat_add]
    have h1 : 'a'.val.toNat = 97 := rfl
    have h2 : 'z'.val.toNat = 122 := rfl
    have h3 : ('A'.val - 'a'.val).toNat = 2 ^ 32 - 32 := rfl
    omega
  · rename_i h
    simp only [Bool.and_eq_false_iff, decide_eq_false_iff_not]
    exact not_and_or.mp h

/-- The parts of a form name start with small letters. -/
def StartsLower (text : List Char) : Prop := ∀ c ∈ text.head?, c.isLower = true

instance (text : List Char) : Decidable (StartsLower text) :=
  decidable_of_iff (text.head?.all Char.isLower = true) (Option.all_eq_true _ _)

theorem startsLower_lookup {table : List (List Char × List Char)}
    (h : ∀ entry ∈ table, StartsLower entry.2) (key : List Char) :
    StartsLower ((table.lookup key).getD []) := by
  cases hentry : table.lookup key with
  | none => exact fun c hc => nomatch hc
  | some text =>
      obtain ⟨before, after, heq, -⟩ := List.lookup_eq_some_iff.mp hentry
      have hmem : (key, text) ∈ table := by
        rw [heq]
        exact List.mem_append_right _ List.mem_cons_self
      exact h _ hmem

theorem startsLower_cons {c : Char} (hc : c.isLower = true) (text : List Char) :
    StartsLower (c :: text) :=
  fun _ h => Option.mem_some.mp h ▸ hc

theorem startsLower_nil : StartsLower [] := fun _ hc => nomatch hc

theorem x86ArgumentIform_startsLower (a : FormArgument) : StartsLower (x86ArgumentIform a) := by
  have htable : ∀ entry ∈ x86Reg2iform, StartsLower entry.2 := by decide
  unfold x86ArgumentIform
  split
  · exact startsLower_lookup htable _
  · split
    · split
      · exact startsLower_cons rfl _
      · exact startsLower_cons rfl _
    · split
      · exact startsLower_cons rfl _
      · exact startsLower_nil

theorem armArgumentIform_startsLower (a : FormArgument) : StartsLower (armArgumentIform a) := by
  have htable : ∀ entry ∈ armReg2iform, StartsLower entry.2 := by decide
  unfold armArgumentIform
  split
  · exact startsLower_lookup htable _
  · split
    · exact startsLower_cons rfl _
    · split
      · exact startsLower_cons rfl _
      · split
        · exact startsLower_cons rfl _
        · exact startsLower_nil

theorem getArgumentIform_startsLower (arch : Architecture) (a : FormArgument) :
    StartsLower (getArgumentIform arch a) := by
  cases arch with
  | x86 => exact x86ArgumentIform_startsLower a
  | arm => exact armArgumentIform_startsLower a

theorem startsLower_flatten {parts : List (List Char)} (h : ∀ part ∈ parts, StartsLower part)
    (hne : ∀ part ∈ parts, part ≠ []) : StartsLower parts.flatten := by
  cases parts with
  | nil => exact fun c hc => nomatch hc
  | cons part parts =>
      have hpart := hne part List.mem_cons_self
      intro c hc
      rw [List.flatten_cons, List.head?_append_of_ne_nil _ hpart] at hc
      exact h part List.mem_cons_self c hc

/-- A form name starts with the mnemonic in capitals. -/
theorem capitals_getIform (arch : Architecture) (t : FormTemplate) :
    capitals (getIform arch t) = Enum.uc t.mnem := by
  have hparts : StartsLower
      ((t.ast.map (getArgumentIform arch)).filter (· ≠ [])).eraseDups.flatten := by
    refine startsLower_flatten (fun part hpart => ?_) fun part hpart => ?_
    · rw [List.mem_eraseDups, List.mem_filter] at hpart
      obtain ⟨a, -, rfl⟩ := List.mem_map.mp hpart.1
      exact getArgumentIform_startsLower arch a
    · rw [List.mem_eraseDups, List.mem_filter, decide_eq_true_eq] at hpart
      exact hpart.2
  rw [capitals, getIform, List.takeWhile_append_of_pos fun c hc => ?_]
  · generalize ((t.ast.map (getArgumentIform arch)).filter (· ≠ [])).eraseDups.flatten = parts
      at hparts
    cases parts with
    | nil => exact List.append_nil _
    | cons c parts =>
        rw [List.takeWhile_cons, hparts c rfl]
        exact List.append_nil _
  · obtain ⟨d, -, rfl⟩ := List.mem_map.mp hc
    rw [isLower_toUpper]
    rfl

/-! ## The map to the mnemonics -/

def noneText : List Char := "NONE".toList

/-- The enumerations of forms and mnemonics, and the members `mnem` of the forms. -/
structure FormNames where
  iform : Enum
  mnemonic : Enum
  mnem : List Char → Option (List Char)

/-- The start of `Generator::Base::new`. -/
def FormNames.new : FormNames where
  iform := (Enum.new "iform".toList).addTop noneText
  mnemonic := (Enum.new "mnemonic".toList).addTop noneText
  mnem := fun _ => none

/-- The names that `process_template` registers; a form that comes again gets the new mnemonic. -/
def FormNames.processTemplate (arch : Architecture) (s : FormNames) (t : FormTemplate) :
    FormNames where
  iform := s.iform.add (getIform arch t)
  mnemonic := s.mnemonic.add t.mnem
  mnem := fun text => if text = getIform arch t then some t.mnem else s.mnem text

def FormNames.process (arch : Architecture) (ts : List FormTemplate) : FormNames :=
  ts.foldl (FormNames.processTemplate arch) .new

/-- The array of `generate_iform2mnem_map`: an element is the constant of a mnemonic, or 0. -/
def FormNames.iform2mnem (s : FormNames) : List Nat :=
  s.iform.process.texts.map fun text =>
    ((s.mnem text).bind fun mnem => s.mnemonic.constant (s.mnemonic.enumeratorName mnem)).getD 0 %
      2 ^ 16

/-- What the string functions give for the form of a template and for the mnemonic that a decoder
looks up for it. -/
def FormNames.printed (arch : Architecture) (s : FormNames) (t : FormTemplate) :
    Option (List Char × List Char) :=
  (s.iform.constant (s.iform.enumeratorName (getIform arch t))).bind fun iform =>
    (s.iform2mnem[iform]?).bind fun mnemonic =>
      (s.iform.toString iform).bind fun formText =>
        (s.mnemonic.toString mnemonic).map fun text => (formText, text)

namespace FormNames

variable {arch : Architecture}

theorem process_concat (ts : List FormTemplate) (t : FormTemplate) :
    process arch (ts ++ [t]) = processTemplate arch (process arch ts) t := by
  rw [process, List.foldl_append]
  rfl

theorem process_enums (ts : List FormTemplate) :
    (process arch ts).iform = Enum.run "iform".toList
        (.addTop noneText :: ts.map fun t => .add (getIform arch t)) ∧
      (process arch ts).mnemonic = Enum.run "mnemonic".toList
        (.addTop noneText :: ts.map fun t => .add t.mnem) := by
  induction ts using List.reverseRecOn with
  | nil => exact ⟨rfl, rfl⟩
  | append_singleton ts t ih =>
      rw [process_concat, List.map_append, List.map_append, ← List.cons_append,
        ← List.cons_append, List.map_singleton, List.map_singleton, Enum.run_concat,
        Enum.run_concat, ← ih.1, ← ih.2]
      exact ⟨rfl, rfl⟩

/-- The last template with a form gives it the mnemonic. -/
structure LastOfForm (arch : Architecture) (ts : List FormTemplate) (iform : List Char)
    (t : FormTemplate) : Prop where
  form : getIform arch t = iform
  last : ∃ before after, ts = before ++ t :: after ∧ ∀ u ∈ after, getIform arch u ≠ iform

theorem process_mnem (ts : List FormTemplate) {t : FormTemplate} (ht : t ∈ ts) :
    ∃ t', LastOfForm arch ts (getIform arch t) t' ∧
      (process arch ts).mnem (getIform arch t) = some t'.mnem := by
  induction ts using List.reverseRecOn with
  | nil => exact absurd ht List.not_mem_nil
  | append_singleton ts u ih =>
      rw [process_concat, processTemplate]
      dsimp only
      by_cases hu : getIform arch t = getIform arch u
      · rw [if_pos hu]
        exact ⟨u, ⟨hu.symm, ts, [], rfl, fun v hv => absurd hv List.not_mem_nil⟩, rfl⟩
      · rw [if_neg hu]
        have hts : t ∈ ts := by
          rcases List.mem_append.mp ht with h | h
          · exact h
          · exact absurd (congrArg (getIform arch) (List.mem_singleton.mp h)) hu
        obtain ⟨t', ⟨hform, before, after, rfl, hafter⟩, hmnem⟩ := ih hts
        refine ⟨t', ⟨hform, before, after ++ [u], by simp, fun v hv => ?_⟩, hmnem⟩
        rcases List.mem_append.mp hv with h | h
        · exact hafter v h
        · exact List.mem_singleton.mp h ▸ fun heq => hu heq.symm

/-- The mnemonics fit the elements of the array. -/
def MnemonicsFit (ts : List FormTemplate) : Prop :=
  (noneText :: ts.map FormTemplate.mnem).eraseDups.length ≤ 2 ^ 16

theorem LastOfForm.mem {ts : List FormTemplate} {iform : List Char} {t : FormTemplate}
    (h : LastOfForm arch ts iform t) : t ∈ ts := by
  obtain ⟨before, after, rfl, -⟩ := h.last
  exact List.mem_append_right _ List.mem_cons_self

theorem printed_eq {ts : List FormTemplate} (hfit : MnemonicsFit ts) {t : FormTemplate}
    (ht : t ∈ ts) :
    ∃ t', LastOfForm arch ts (getIform arch t) t' ∧
      (process arch ts).printed arch t = some (getIform arch t, t'.mnem) := by
  obtain ⟨t', hlast, hmnem⟩ := @process_mnem arch ts t ht
  refine ⟨t', hlast, ?_⟩
  obtain ⟨hiform, hmnemonic⟩ := process_enums ts
  generalize process arch ts = s at hmnem hiform hmnemonic
  obtain ⟨v, hv⟩ : ∃ v, s.iform.value (getIform arch t) = some v := by
    rw [hiform, Enum.value_isSome]
    exact ⟨_, List.mem_cons_of_mem _ (List.mem_map_of_mem ht), rfl⟩
  obtain ⟨m, hm⟩ : ∃ m, s.mnemonic.value t'.mnem = some m := by
    rw [hmnemonic, Enum.value_isSome]
    exact ⟨_, List.mem_cons_of_mem _ (List.mem_map_of_mem hlast.mem), rfl⟩
  have hform := (Enum.value_eq_some_iff _ _ _).mp hv
  have htext := (Enum.value_eq_some_iff _ _ _).mp hm
  have hlt : m < 2 ^ 16 := by
    have hgapless := (List.getElem?_eq_some_iff.mp htext).1
    rw [hmnemonic, Enum.length_process, callTexts, List.map_cons, List.map_map] at hgapless
    exact Nat.lt_of_lt_of_le hgapless hfit
  have helement : s.iform2mnem[v]? = some m := by
    rw [iform2mnem, List.getElem?_map, show s.iform.process.texts[v]? = _ from hform,
      Option.map_some, hmnem, Option.bind_some, Enum.constant_enumeratorName, hm,
      Option.getD_some, Nat.mod_eq_of_lt hlt]
  rw [printed, Enum.constant_enumeratorName, hv, Option.bind_some, helement, Option.bind_some,
    hform, Option.bind_some, htext, Option.map_some]

/-- For every template the string functions give its form, and the mnemonic of the last template
with this form. That mnemonic differs at most in small letters, so it is the template's own where
mnemonics come in capitals. -/
theorem printed_of_process {ts : List FormTemplate} (hfit : MnemonicsFit ts) {t : FormTemplate}
    (ht : t ∈ ts) :
    (∃ t', LastOfForm arch ts (getIform arch t) t' ∧ Enum.uc t'.mnem = Enum.uc t.mnem ∧
      (process arch ts).printed arch t = some (getIform arch t, t'.mnem)) ∧
    ((∀ u ∈ ts, Enum.uc u.mnem = u.mnem) →
      (process arch ts).printed arch t = some (getIform arch t, t.mnem)) := by
  obtain ⟨t', hlast, hprinted⟩ := printed_eq hfit ht
  have hsame : Enum.uc t'.mnem = Enum.uc t.mnem := by
    rw [← capitals_getIform arch t', ← capitals_getIform arch t, hlast.form]
  refine ⟨⟨t', hlast, hsame, hprinted⟩, fun hcapitals => ?_⟩
  rw [hprinted, ← hcapitals t ht, ← hsame, hcapitals t' hlast.mem]

/-- Two forms of `ADC`. -/
def adcTemplates : List FormTemplate :=
  [⟨"ADC".toList, [⟨"MEM".toList, "8".toList, [], [], none⟩, ⟨"IMM".toList, "8".toList, [], [], none⟩]⟩,
    ⟨"ADC".toList, [⟨"REG".toList, "8".toList, "GPR".toList, [], none⟩]⟩]

theorem printed_of_process_adc :
    (process .x86 adcTemplates).printed .x86 ⟨"ADC".toList,
        [⟨"MEM".toList, "8".toList, [], [], none⟩, ⟨"IMM".toList, "8".toList, [], [], none⟩]⟩ =
      some ("ADCmbib".toList, "ADC".toList) :=
  (printed_of_process (by unfold MnemonicsFit; decide) List.mem_cons_self).2 (by decide)

end FormNames

/-! ## Encodings and registers -/

/-- The enumeration of the encodings: `process_encoding` puts each at the top. -/
def encodingEnum (ids : List (List Char)) : Enum :=
  ids.foldl Enum.addTop ((Enum.new "encoding".toList).addTop noneText)

/-- The enumeration that `process_registers` fills. -/
def registerEnum (registers : List (List Char)) : Enum :=
  registers.foldl Enum.add ((Enum.new "register".toList).addTop noneText)

theorem encodingEnum_eq (ids : List (List Char)) :
    encodingEnum ids = Enum.run "encoding".toList ((noneText :: ids).map .addTop) := by
  rw [encodingEnum, Enum.run, List.foldl_map]
  rfl

theorem registerEnum_eq (registers : List (List Char)) :
    registerEnum registers =
      Enum.run "register".toList (.addTop noneText :: registers.map .add) := by
  rw [registerEnum, Enum.run, List.foldl_cons, List.foldl_map]
  rfl

theorem encodingEnum_texts (ids : List (List Char)) :
    (encodingEnum ids).process.texts = (noneText :: ids).eraseDups := by
  have htexts : callTexts ((noneText :: ids).map .addTop) = (noneText :: ids).eraseDups := by
    rw [callTexts, List.map_map]
    exact congrArg List.eraseDups (List.map_id _)
  rw [encodingEnum_eq, Enum.process_texts_of_sorted, htexts]
  -- all of them have rank 0
  rw [htexts]
  refine List.pairwise_of_forall_mem_list fun a ha b _ => ?_
  rw [rank, if_pos (List.mem_map_of_mem (List.mem_eraseDups.mp ha))]
  exact Nat.zero_le _

theorem registerEnum_texts (registers : List (List Char)) :
    (registerEnum registers).process.texts = (noneText :: registers).eraseDups := by
  have htexts : callTexts (.addTop noneText :: registers.map .add) =
      (noneText :: registers).eraseDups := by
    rw [callTexts, List.map_cons, List.map_map]
    exact congrArg (fun texts => (noneText :: texts).eraseDups) (List.map_id _)
  rw [registerEnum_eq, Enum.process_texts_of_sorted, htexts]
  -- `NONE` has rank 0, the others rank 2
  have hrest (text : List Char) (h : text ≠ noneText) :
      rank (.addTop noneText :: registers.map .add) text = 2 := by
    rw [rank, if_neg, if_neg] <;> simp [h]
  rw [htexts, List.eraseDups_cons, List.pairwise_cons]
  refine ⟨fun b _ => ?_, List.pairwise_of_forall_mem_list fun a ha b hb => ?_⟩
  · rw [rank, if_pos List.mem_cons_self]
    exact Nat.zero_le _
  · rw [List.mem_eraseDups, List.mem_filter] at ha hb
    rw [hrest a fun h => by simp [h] at ha, hrest b fun h => by simp [h] at hb]

/-- Up to the first encoding whose identifier comes twice, the enumerator of an encoding has the
number behind its position, and the string of the position is the identifier of the encoding before
it. -/
theorem encodingEnum_previous {ids : List (List Char)} {i : Nat} {id : List Char}
    (hid : ids[i]? = some id) (hnodup : (noneText :: ids.take (i + 1)).Nodup) :
    (encodingEnum ids).value id = some (i + 1) ∧
      (encodingEnum ids).toString i = (noneText :: ids)[i]? := by
  have htake : ((noneText :: ids).take (i + 1 + 1)).Nodup := hnodup
  constructor
  · rw [Enum.value, encodingEnum_texts, idxOf?_eraseDups_iff (by rwa [List.getElem?_cons_succ])]
    exact htake
  · rw [Enum.toString, encodingEnum_texts]
    exact getElem?_eraseDups (htake.sublist (List.take_sublist_take_left (Nat.le_succ _)))

theorem registerEnum_value {registers : List (List Char)}
    (hnone : registers.head? = some noneText) (reg : List Char) :
    (registerEnum registers).value reg = registers.eraseDups.idxOf? reg := by
  have htexts : (registerEnum registers).process.texts = registers.eraseDups := by
    rw [registerEnum_texts]
    cases registers with
    | nil => cases hnone
    | cons first registers =>
        obtain rfl : first = noneText := Option.some.inj hnone
        simp [List.eraseDups_cons]
  rw [Enum.value, htexts]

/-- `process_registers` writes a row for every register. A register's number leads to its own row
where no register up to it comes twice, and the number is the row's only there: a register that is
new has as many different ones before it as its number says. -/
theorem registerEnum_rows {Row : Type} {registers : List (List Char × Row)}
    (hnone : (registers.map Prod.fst).head? = some noneText) {k : Nat} {reg : List Char} {row : Row}
    (hk : registers[k]? = some (reg, row)) :
    (((registers.map Prod.fst).take (k + 1)).Nodup →
      ∃ v, (registerEnum (registers.map Prod.fst)).value reg = some v ∧
        (registers.map Prod.snd)[v]? = some row) ∧
    ((registerEnum (registers.map Prod.fst)).value reg = some k ↔
      ((registers.map Prod.fst).take (k + 1)).Nodup) ∧
    (reg ∉ (registers.map Prod.fst).take k →
      (registerEnum (registers.map Prod.fst)).value reg =
        some ((registers.map Prod.fst).take k).eraseDups.length) := by
  have hreg : (registers.map Prod.fst)[k]? = some reg := by rw [List.getElem?_map, hk]; rfl
  have hrow : (registers.map Prod.snd)[k]? = some row := by rw [List.getElem?_map, hk]; rfl
  rw [registerEnum_value hnone]
  refine ⟨fun h => ⟨k, (idxOf?_eraseDups_iff hreg).mpr h, hrow⟩, idxOf?_eraseDups_iff hreg,
    fun hmem => ?_⟩
  have hnumber := idxOf?_eraseDups_of_notMem hmem ((registers.map Prod.fst).drop (k + 1))
  obtain ⟨hlt, heq⟩ := List.getElem?_eq_some_iff.mp hreg
  rwa [← heq, ← List.drop_eq_getElem_cons hlt, List.take_append_drop, heq] at hnumber

/-- `NONE` comes again before the banked registers of the AArch32 table, so that the number of
`R8_usr` leads to that row. -/
def bankedRegisters : List (List Char × Nat) :=
  [(noneText, 0), ("Q31".toList, 128), (noneText, 0), ("R8_usr".toList, 32)]

theorem registerEnum_rows_banked :
    (registerEnum (bankedRegisters.map Prod.fst)).value "R8_usr".toList = some 2 :=
  (registerEnum_rows (by decide) (show bankedRegisters[3]? = some ("R8_usr".toList, 32) from rfl)).2.2
    (by decide)

end Amed.Generator
