import Mathlib.Data.List.Basic
import Mathlib.Tactic.Ring

/-!
# Printing into a buffer

A printer moves a pointer over memory: it stores single characters, and formats texts into a number
of characters that it says. A formatted text is followed by the null character and has to fit with
it; one that does not ends the program. At the end the printer stores a null character, makes the
string lower-case on demand, and returns how far its pointer has come.
-/

namespace Amed.Printing

/-- Memory, counted from the start of the buffer. -/
abbrev Memory := Nat → Char

/-- What a printer does with its pointer. -/
inductive Op
  | put (c : Char)
  | format (max : Nat) (text : List Char)
  | fail
  deriving DecidableEq, Repr

/-- The text an operation prints. -/
def Op.text : Op → List Char
  | .put c => [c]
  | .format _ text => text
  | .fail => []

/-- The operation does not end the program. -/
def Op.Fits : Op → Prop
  | .put _ => True
  | .format max text => text.length < max
  | .fail => False

/-- The pointer of a printer and the memory it moves over. -/
structure Printer where
  pc : Nat
  memory : Memory

def storeText (m : Memory) (i : Nat) : List Char → Memory
  | [] => m
  | c :: cs => storeText (Function.update m i c) (i + 1) cs

def Op.run : Op → Printer → Option Printer
  | .put c, p => some ⟨p.pc + 1, Function.update p.memory p.pc c⟩
  | .format max text, p =>
      if text.length < max then
        some ⟨p.pc + text.length, storeText p.memory p.pc (text ++ [Char.ofNat 0])⟩
      else none
  | .fail, _ => none

def runAll : List Op → Printer → Option Printer
  | [], p => some p
  | op :: ops, p => (op.run p).bind (runAll ops)

def textOf (ops : List Op) : List Char := ops.flatMap Op.text

/-- No operation ends the program. -/
def AllFit (ops : List Op) : Prop := ∀ op ∈ ops, op.Fits

/-! ## Texts in memory -/

/-- The first characters of memory. -/
def readText (m : Memory) (n : Nat) : List Char := (List.range n).map m

theorem readText_succ (m : Memory) (n : Nat) : readText m (n + 1) = readText m n ++ [m n] := by
  rw [readText, List.range_succ, List.map_append]
  rfl

theorem readText_congr {m m' : Memory} {n : Nat} (h : ∀ i < n, m i = m' i) :
    readText m n = readText m' n :=
  List.map_congr_left fun i hi => h i (List.mem_range.mp hi)

@[simp] theorem readText_length (m : Memory) (n : Nat) : (readText m n).length = n := by
  simp [readText]

/-- A text is stored from its position on; what is below stays. -/
theorem storeText_below (m : Memory) (i : Nat) (cs : List Char) {j : Nat} (h : j < i) :
    storeText m i cs j = m j := by
  induction cs generalizing m i with
  | nil => rfl
  | cons c cs ih =>
      rw [storeText, ih _ _ (by omega), Function.update_of_ne (by omega)]

/-- A text that is stored behind another one is read behind it. -/
theorem readText_storeText (m : Memory) (i : Nat) (cs rest : List Char) :
    readText (storeText m i (cs ++ rest)) (i + cs.length) = readText m i ++ cs := by
  induction cs generalizing m i with
  | nil =>
      rw [List.append_nil]
      exact readText_congr fun j hj => storeText_below m i _ hj
  | cons c cs ih =>
      have hstep : i + (c :: cs).length = i + 1 + cs.length := by
        rw [List.length_cons]
        omega
      rw [hstep, List.cons_append, storeText, ih, readText_succ, Function.update_self]
      have hbefore : readText (Function.update m i c) i = readText m i :=
        readText_congr fun j hj => Function.update_of_ne (by omega) _ _
      rw [hbefore, List.append_assoc]
      rfl

/-- A string ends with the first null character. -/
structure IsString (m : Memory) (text : List Char) : Prop where
  read : readText m text.length = text
  ends : m text.length = Char.ofNat 0
  inner : Char.ofNat 0 ∉ text

theorem IsString.length_le {m : Memory} {text text' : List Char} (h : IsString m text)
    (h' : IsString m text') : text.length ≤ text'.length := by
  by_contra hlt
  apply h.inner
  rw [← h.read, readText, List.mem_map]
  exact ⟨text'.length, List.mem_range.mpr (by omega), h'.ends⟩

/-- Memory holds one string: its end is the first null character. -/
theorem IsString.unique {m : Memory} {text text' : List Char} (h : IsString m text)
    (h' : IsString m text') : text = text' := by
  have hlength := Nat.le_antisymm (h.length_le h') (h'.length_le h)
  rw [← h.read, hlength, h'.read]

/-! ## Runs -/

/-- An operation runs where its text fits. -/
theorem Op.run_isSome {op : Op} {p : Printer} : (op.run p).isSome = true ↔ op.Fits := by
  cases op with
  | put c => simp [Op.run, Op.Fits]
  | format max text =>
      rw [Op.run, Op.Fits]
      split
      · rename_i hfit
        simp [hfit]
      · rename_i hfit
        simp [hfit]
  | fail => simp [Op.run, Op.Fits]

/-- A run of an operation appends its text and moves the position by as much. -/
theorem Op.run_text {op : Op} {p p' : Printer} (h : op.run p = some p') :
    p'.pc = p.pc + op.text.length ∧
      readText p'.memory p'.pc = readText p.memory p.pc ++ op.text := by
  cases op with
  | put c =>
      cases h
      refine ⟨rfl, ?_⟩
      exact readText_storeText p.memory p.pc [c] []
  | format max text =>
      rw [Op.run] at h
      split at h
      · cases h
        exact ⟨rfl, readText_storeText p.memory p.pc text _⟩
      · cases h
  | fail => cases h

/-- A list of operations runs where each of them fits. -/
theorem runAll_isSome {ops : List Op} {p : Printer} :
    (runAll ops p).isSome = true ↔ AllFit ops := by
  induction ops generalizing p with
  | nil => simp [runAll, AllFit]
  | cons op ops ih =>
      rw [AllFit, List.forall_mem_cons, runAll, ← Op.run_isSome (p := p)]
      cases op.run p with
      | none => simp
      | some p' =>
          rw [Option.bind_some, ih]
          simp [AllFit]

/-- A run of a list of operations appends their texts. -/
theorem runAll_text {ops : List Op} {p p' : Printer} (h : runAll ops p = some p') :
    p'.pc = p.pc + (textOf ops).length ∧
      readText p'.memory p'.pc = readText p.memory p.pc ++ textOf ops := by
  induction ops generalizing p with
  | nil =>
      cases h
      exact ⟨rfl, (List.append_nil _).symm⟩
  | cons op ops ih =>
      obtain ⟨q, hq, hrest⟩ := Option.bind_eq_some_iff.mp h
      obtain ⟨hpc, htext⟩ := Op.run_text hq
      obtain ⟨hpc', htext'⟩ := ih hrest
      have hcons : textOf (op :: ops) = op.text ++ textOf ops := List.flatMap_cons
      rw [hcons]
      refine ⟨?_, ?_⟩
      · rw [hpc', hpc, List.length_append, Nat.add_assoc]
      · rw [htext', htext, List.append_assoc]

/-! ## The end of a printer -/

/-- The loop that makes a string lower-case, and where it leaves its pointer. -/
def lowerFrom : Nat → Memory → Nat → Nat × Memory
  | 0, m, i => (i, m)
  | fuel + 1, m, i =>
      if m i = Char.ofNat 0 then (i, m)
      else lowerFrom fuel (Function.update m i (m i).toLower) (i + 1)

/-- The end of the print functions. The loop moves the pointer to the buffer, and its distance to
the pointer of the printer is returned. -/
def finish (lowerCase : Bool) (p : Printer) : Int × Memory :=
  let m := Function.update p.memory p.pc (Char.ofNat 0)
  if lowerCase then
    let r := lowerFrom (p.pc + 1) m 0
    ((p.pc : Int) - r.1, r.2)
  else ((p.pc : Int), m)

def print (lowerCase : Bool) (ops : List Op) (m : Memory) : Option (Int × Memory) :=
  (runAll ops ⟨0, m⟩).map (finish lowerCase)

theorem toLower_ne_null {c : Char} (h : c ≠ Char.ofNat 0) : c.toLower ≠ Char.ofNat 0 := by
  delta Char.toLower
  split
  · rename_i hupper
    intro hnull
    have hval := congrArg Char.val hnull
    simp only at hval
    have hnat := congrArg UInt32.toNat hval
    rw [UInt32.toNat_add] at hnat
    have hlow : 65 ≤ c.val.toNat := UInt32.le_iff_toNat_le.mp hupper.1
    have hhigh : c.val.toNat ≤ 90 := UInt32.le_iff_toNat_le.mp hupper.2
    have hoffset : ('a'.val - 'A'.val).toNat = 32 := rfl
    have hzero : (Char.ofNat 0).val.toNat = 0 := rfl
    omega
  · exact h

theorem readText_eq_iff {m : Memory} {text : List Char} :
    readText m text.length = text ↔ ∀ i < text.length, text[i]? = some (m i) := by
  constructor
  · intro h i hi
    rw [← h, readText, List.getElem?_map, List.getElem?_range hi]
    rfl
  · intro h
    apply List.ext_getElem?
    intro i
    by_cases hi : i < text.length
    · rw [h i hi, readText, List.getElem?_map, List.getElem?_range hi]
      rfl
    · rw [List.getElem?_eq_none (by simpa using hi), List.getElem?_eq_none (by simpa using hi)]

/-- One character of a string is replaced. -/
theorem IsString.replace {m : Memory} {before rest : List Char} {c c' : Char}
    (h : IsString m (before ++ c :: rest)) (hc' : c' ≠ Char.ofNat 0) :
    IsString (Function.update m before.length c') (before ++ c' :: rest) := by
  have hlength : (before ++ c' :: rest).length = (before ++ c :: rest).length := by simp
  have hinner := h.inner
  simp only [List.mem_append, List.mem_cons, not_or] at hinner
  refine ⟨?_, ?_, ?_⟩
  · rw [readText_eq_iff]
    intro i hi
    rw [hlength] at hi
    have hread := readText_eq_iff.mp h.read i hi
    by_cases heq : i = before.length
    · subst heq
      rw [Function.update_self, List.getElem?_append_right (Nat.le_refl _), Nat.sub_self]
      rfl
    · rw [Function.update_of_ne heq, ← hread]
      by_cases hlt : i < before.length
      · rw [List.getElem?_append_left hlt, List.getElem?_append_left hlt]
      · rw [List.getElem?_append_right (by omega), List.getElem?_append_right (by omega)]
        obtain ⟨k, hk⟩ : ∃ k, i - before.length = k + 1 := ⟨i - before.length - 1, by omega⟩
        rw [hk]
        rfl
  · rw [hlength, Function.update_of_ne]
    · exact h.ends
    · rw [List.length_append, List.length_cons]
      omega
  · simp only [List.mem_append, List.mem_cons, not_or]
    exact ⟨hinner.1, hc'.symm, hinner.2.2⟩

/-- Writing the lower case walks to the end of the string and keeps its length. -/
theorem lowerFrom_string {fuel : Nat} {m : Memory} {before rest : List Char}
    (h : IsString m (before ++ rest)) (hfuel : rest.length < fuel) :
    (lowerFrom fuel m before.length).1 = (before ++ rest).length ∧
      IsString (lowerFrom fuel m before.length).2 (before ++ rest.map Char.toLower) := by
  induction rest generalizing fuel m before with
  | nil =>
      obtain ⟨fuel, rfl⟩ := Nat.exists_eq_add_of_lt hfuel
      have hends := h.ends
      rw [List.append_nil] at h hends ⊢
      rw [lowerFrom, if_pos hends]
      exact ⟨rfl, by simpa using h⟩
  | cons c rest ih =>
      obtain ⟨fuel, rfl⟩ := Nat.exists_eq_succ_of_ne_zero (Nat.ne_of_gt (Nat.zero_lt_of_lt hfuel))
      have hc : c ≠ Char.ofNat 0 := by
        rintro rfl
        exact h.inner (by simp)
      have hread : m before.length = c := by
        have hget := readText_eq_iff.mp h.read before.length (by simp)
        rw [List.getElem?_append_right (Nat.le_refl _), Nat.sub_self] at hget
        exact (Option.some.inj hget).symm
      rw [lowerFrom, hread, if_neg hc]
      have hnext := h.replace (toLower_ne_null hc)
      have hlength : (before ++ [c.toLower]).length = before.length + 1 := by simp
      rw [List.append_cons before c.toLower rest] at hnext
      have hloop := @ih fuel _ (before ++ [c.toLower]) hnext (Nat.lt_of_succ_lt_succ hfuel)
      rw [hlength] at hloop
      simpa using hloop

/-- What a printer whose operations fit leaves in the buffer and returns. -/
theorem print_of_allFit {ops : List Op} (hfit : AllFit ops) (hnull : Char.ofNat 0 ∉ textOf ops)
    (lowerCase : Bool) (m : Memory) :
    ∃ m', print lowerCase ops m =
        some (if lowerCase then (0 : Int) else ((textOf ops).length : Int), m') ∧
      IsString m' (if lowerCase then (textOf ops).map Char.toLower else textOf ops) := by
  obtain ⟨p, hp⟩ := Option.isSome_iff_exists.mp (runAll_isSome (p := ⟨0, m⟩) |>.mpr hfit)
  obtain ⟨hpc, htext⟩ := runAll_text hp
  rw [Nat.zero_add] at hpc
  have hstring : IsString (Function.update p.memory p.pc (Char.ofNat 0)) (textOf ops) := by
    refine ⟨?_, ?_, hnull⟩
    · rw [← hpc]
      calc readText (Function.update p.memory p.pc (Char.ofNat 0)) p.pc
          = readText p.memory p.pc :=
            readText_congr fun i hi => Function.update_of_ne (Nat.ne_of_lt hi) _ _
        _ = textOf ops := by rw [htext]; rfl
    · rw [← hpc, Function.update_self]
  rw [print, hp, Option.map_some]
  cases lowerCase with
  | false => exact ⟨_, by simp [finish, hpc], hstring⟩
  | true =>
      obtain ⟨hlength, hlower⟩ := @lowerFrom_string (p.pc + 1) _ [] (textOf ops) hstring (by omega)
      refine ⟨_, ?_, hlower⟩
      rw [List.nil_append, List.length_nil, ← hpc] at hlength
      have hreturn : finish true p =
          ((p.pc : Int) - (lowerFrom (p.pc + 1)
              (Function.update p.memory p.pc (Char.ofNat 0)) 0).1,
            (lowerFrom (p.pc + 1) (Function.update p.memory p.pc (Char.ofNat 0)) 0).2) := rfl
      rw [hreturn, hlength, Int.sub_self]
      rfl

/-- What is printed has fitted. -/
theorem allFit_of_print {ops : List Op} {lowerCase : Bool} {m : Memory} {r : Int × Memory}
    (h : print lowerCase ops m = some r) : AllFit ops := by
  obtain ⟨p, hp, -⟩ := Option.map_eq_some_iff.mp h
  exact (runAll_isSome (p := ⟨0, m⟩)).mp (Option.isSome_iff_exists.mpr ⟨p, hp⟩)

/-- The length of the string in the buffer is returned, and with lower case the string is that
without, made lower-case, and of the same length. -/
def ReturnsLength (print : Bool → Memory → Option (Int × Memory)) (lowerCase : Bool) : Prop :=
  ∀ m, ∃ n m' text, print lowerCase m = some (n, m') ∧ IsString m' text ∧ n = text.length ∧
    (lowerCase = true → ∃ m₀ text₀, print false m = some (n, m₀) ∧ IsString m₀ text₀ ∧
      text = text₀.map Char.toLower)

/-- The loop for lower case moves the pointer the length is counted from. -/
theorem returnsLength_iff {ops : List Op} (hnull : Char.ofNat 0 ∉ textOf ops)
    (hne : AllFit ops → textOf ops ≠ []) (lowerCase : Bool) :
    ReturnsLength (fun lower m => print lower ops m) lowerCase ↔
      lowerCase = false ∧ AllFit ops := by
  constructor
  · intro h
    obtain ⟨n, m', text, hprint, hstring, hn, -⟩ := h fun _ => Char.ofNat 0
    have hfit := allFit_of_print hprint
    refine ⟨?_, hfit⟩
    obtain ⟨m'', hprint', hstring'⟩ := print_of_allFit hfit hnull lowerCase fun _ => Char.ofNat 0
    cases lowerCase with
    | false => rfl
    | true =>
        obtain ⟨rfl, rfl⟩ := Prod.mk.inj (Option.some.inj (hprint.symm.trans hprint'))
        have hempty : (textOf ops).length = 0 := by
          have hlength := congrArg List.length (hstring.unique hstring')
          rw [if_pos rfl, List.length_map] at hlength
          simp only [if_true] at hn
          omega
        exact absurd (List.length_eq_zero_iff.mp hempty) (hne hfit)
  · rintro ⟨rfl, hfit⟩ m
    obtain ⟨m', hprint, hstring⟩ := print_of_allFit hfit hnull false m
    exact ⟨_, m', _, hprint, hstring, rfl, fun h => absurd h Bool.false_ne_true⟩

/-! ## Operations that fit -/

/-- Two lists of operations fit where each of them does. -/
theorem allFit_append {ops ops' : List Op} :
    AllFit (ops ++ ops') ↔ AllFit ops ∧ AllFit ops' := List.forall_mem_append

theorem allFit_cons {op : Op} {ops : List Op} : AllFit (op :: ops) ↔ op.Fits ∧ AllFit ops :=
  List.forall_mem_cons

@[simp] theorem allFit_nil : AllFit [] := List.forall_mem_nil _

theorem textOf_append (ops ops' : List Op) : textOf (ops ++ ops') = textOf ops ++ textOf ops' :=
  List.flatMap_append

theorem textOf_cons (op : Op) (ops : List Op) : textOf (op :: ops) = op.text ++ textOf ops :=
  List.flatMap_cons

theorem allFit_ite {p : Prop} [Decidable p] {ops ops' : List Op} :
    AllFit (if p then ops else ops') ↔ (p → AllFit ops) ∧ (¬p → AllFit ops') := by
  split
  · rename_i hp
    simp [hp]
  · rename_i hp
    simp [hp]

/-- Operations that are made for a list fit where those of each of its items do. -/
theorem allFit_flatMap {α : Type} {as : List α} {ops : α → List Op} :
    AllFit (as.flatMap ops) ↔ ∀ a ∈ as, AllFit (ops a) := by
  simp only [AllFit, List.mem_flatMap]
  constructor
  · intro h a ha op hop
    exact h op ⟨a, ha, hop⟩
  · rintro h op ⟨a, ha, hop⟩
    exact h a ha op hop

@[simp] theorem put_fits (c : Char) : (Op.put c).Fits := trivial

@[simp] theorem format_fits {max : Nat} {text : List Char} :
    (Op.format max text).Fits ↔ text.length < max := Iff.rfl

/-- The text of the operations holds no null character. -/
def Clean (ops : List Op) : Prop := Char.ofNat 0 ∉ textOf ops

@[simp] theorem clean_nil : Clean [] := List.not_mem_nil

theorem clean_append {ops ops' : List Op} : Clean (ops ++ ops') ↔ Clean ops ∧ Clean ops' := by
  rw [Clean, textOf_append, List.mem_append, not_or]
  rfl

theorem clean_cons {op : Op} {ops : List Op} :
    Clean (op :: ops) ↔ Char.ofNat 0 ∉ op.text ∧ Clean ops := by
  rw [Clean, textOf_cons, List.mem_append, not_or]
  rfl

theorem clean_ite {p : Prop} [Decidable p] {ops ops' : List Op} (h : Clean ops) (h' : Clean ops') :
    Clean (if p then ops else ops') := by
  split
  · exact h
  · exact h'

theorem clean_singleton {op : Op} : Clean [op] ↔ Char.ofNat 0 ∉ op.text := by
  rw [clean_cons]
  exact and_iff_left clean_nil

theorem put_clean {c : Char} (h : c ≠ Char.ofNat 0) {ops : List Op} (hops : Clean ops) :
    Clean (.put c :: ops) :=
  clean_cons.mpr ⟨fun hmem => h (List.mem_singleton.mp hmem).symm, hops⟩

theorem format_clean {max : Nat} {text : List Char} (h : Char.ofNat 0 ∉ text) :
    Clean [.format max text] := clean_singleton.mpr h

theorem clean_flatMap {α : Type} {as : List α} {ops : α → List Op} (h : ∀ a ∈ as, Clean (ops a)) :
    Clean (as.flatMap ops) := by
  induction as with
  | nil => exact clean_nil
  | cons a as ih =>
      obtain ⟨ha, has⟩ := List.forall_mem_cons.mp h
      rw [List.flatMap_cons]
      exact clean_append.mpr ⟨ha, ih has⟩

theorem textOf_ne_nil {ops : List Op} : textOf ops ≠ [] ↔ ∃ op ∈ ops, op.text ≠ [] := by
  rw [textOf, Ne, List.flatMap_eq_nil_iff]
  simp only [not_forall, exists_prop]

/-- A join is its first text and the others with the separator before them. -/
theorem intercalate_cons (between text : List Char) (texts : List (List Char)) :
    List.intercalate between (text :: texts) = text ++ texts.flatMap (between ++ ·) := by
  induction texts generalizing text with
  | nil => rw [List.intercalate_singleton, List.flatMap_nil, List.append_nil]
  | cons text' texts ih =>
      rw [List.intercalate_cons_cons, ih, List.flatMap_cons, List.append_assoc, List.append_assoc]

/-! ## Names -/

/-- A name of an enumeration, shorter than the length the enumeration gives. -/
structure EnumName (max : Nat) where
  text : List Char
  ne_nil : text ≠ []
  short : text.length < max
  no_null : Char.ofNat 0 ∉ text

/-- The name of a value, formatted with characters around it. A value without a name fails an
assertion. -/
def Op.named {n : Nat} (table : List (EnumName n)) (value max : Nat) (before after : List Char) :
    Op :=
  match table[value]? with
  | none => .fail
  | some name => .format max (before ++ name.text ++ after)

/-- The name of a value alone, with the length the enumeration gives. -/
def Op.name {n : Nat} (table : List (EnumName n)) (value : Nat) : Op := .named table value n [] []

/-- A name of a table fits with its surroundings if it is there, since the table bounds its
length. -/
theorem named_fits {n : Nat} {table : List (EnumName n)} {value max : Nat}
    {before after : List Char} (h : before.length + after.length + n ≤ max) :
    (Op.named table value max before after).Fits ↔ value < table.length := by
  rw [Op.named]
  cases hname : table[value]? with
  | none => simpa [Op.Fits] using List.getElem?_eq_none_iff.mp hname
  | some name =>
      have hshort := name.short
      have hfits : (before ++ name.text ++ after).length < max := by
        simp only [List.length_append]
        omega
      exact iff_of_true hfits (List.getElem?_eq_some_iff.mp hname).1

theorem name_fits {n : Nat} {table : List (EnumName n)} {value : Nat} :
    (Op.name table value).Fits ↔ value < table.length := named_fits (by simp)

/-- The names of a table have no null character. -/
theorem named_no_null {n : Nat} {table : List (EnumName n)} {value max : Nat}
    {before after : List Char} (h : Char.ofNat 0 ∉ before) (h' : Char.ofNat 0 ∉ after) :
    Char.ofNat 0 ∉ (Op.named table value max before after).text := by
  rw [Op.named]
  cases table[value]? with
  | none => exact List.not_mem_nil
  | some name =>
      have hname := name.no_null
      simp only [Op.text, List.mem_append, not_or]
      exact ⟨⟨h, hname⟩, h'⟩

theorem name_no_null {n : Nat} {table : List (EnumName n)} {value : Nat} :
    Char.ofNat 0 ∉ (Op.name table value).text := named_no_null List.not_mem_nil List.not_mem_nil

theorem name_text_ne_nil {n : Nat} {table : List (EnumName n)} {value : Nat}
    (h : value < table.length) : (Op.name table value).text ≠ [] := by
  have hne := table[value].ne_nil
  rw [Op.name, Op.named, List.getElem?_eq_getElem h]
  simpa [Op.text] using hne

theorem name_clean {n : Nat} {table : List (EnumName n)} {value : Nat} :
    Clean [.name table value] := clean_singleton.mpr name_no_null

theorem name_cons_clean {n : Nat} {table : List (EnumName n)} {value : Nat} {ops : List Op}
    (h : Clean ops) : Clean (.name table value :: ops) := clean_cons.mpr ⟨name_no_null, h⟩

/-! ## Numbers -/

/-- The conversions `%u` and `%d` of a number that is not negative. -/
def decimal (n : Nat) : List Char := Nat.toDigits 10 n

/-- The conversion `%d`. -/
def signedDecimal (i : Int) : List Char :=
  if i < 0 then '-' :: decimal i.natAbs else decimal i.natAbs

/-- The conversion `%0<width>x`. -/
def hex (width n : Nat) : List Char := (Nat.toDigits 16 n).leftpad width '0'

theorem digitChar_ne_null : ∀ n < 16, n.digitChar ≠ Char.ofNat 0 := by decide

theorem toDigits_no_null {b : Nat} (hb : 1 < b) (hb' : b ≤ 16) (n : Nat) :
    Char.ofNat 0 ∉ Nat.toDigits b n := by
  induction n using Nat.strongRecOn with
  | _ n ih =>
      rw [Nat.toDigits_eq_if hb]
      split
      · rename_i hlt
        rw [List.mem_singleton]
        exact (digitChar_ne_null n (by omega)).symm
      · rename_i hle
        have hmod := Nat.mod_lt n (Nat.zero_lt_of_lt hb)
        rw [List.mem_append, not_or, List.mem_singleton]
        exact ⟨ih _ (Nat.div_lt_self (by omega) hb), (digitChar_ne_null _ (by omega)).symm⟩

theorem decimal_no_null (n : Nat) : Char.ofNat 0 ∉ decimal n :=
  toDigits_no_null (by decide) (by decide) n

theorem signedDecimal_no_null (i : Int) : Char.ofNat 0 ∉ signedDecimal i := by
  have hdecimal := decimal_no_null i.natAbs
  rw [signedDecimal]
  split
  · rw [List.mem_cons, not_or]
    exact ⟨by decide, hdecimal⟩
  · exact hdecimal

theorem hex_no_null (width n : Nat) : Char.ofNat 0 ∉ hex width n := by
  have hdigits := toDigits_no_null (b := 16) (by decide) (by decide) n
  rw [hex, List.leftpad, List.mem_append, not_or]
  refine ⟨fun h => ?_, hdigits⟩
  have hzero := List.eq_of_mem_replicate h
  exact absurd hzero (by decide)

/-- A number has at most as many decimal digits as the power of ten above it says. -/
theorem decimal_length_le {n k : Nat} (hk : 0 < k) : (decimal n).length ≤ k ↔ n < 10 ^ k :=
  Nat.length_toDigits_le_iff (by decide) hk

/-- A number that is padded with zeros is at least as long as the padding. -/
theorem hex_length_le {width n k : Nat} (hk : 0 < k) :
    (hex width n).length ≤ k ↔ width ≤ k ∧ n < 16 ^ k := by
  rw [hex, List.length_leftpad, Nat.max_le, Nat.length_toDigits_le_iff (by decide) hk]

theorem decimal_ne_nil (n : Nat) : decimal n ≠ [] := Nat.toDigits_ne_nil

end Amed.Printing
