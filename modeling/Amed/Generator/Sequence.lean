import Mathlib.Data.List.Induction
import Amed.Library.Delimited
import Amed.Library.Numbering
import Amed.Library.Printing

/-!
# Arrays of one table

`Generator::Sequence` writes arrays of C initialisers one behind the other in a table, an array
that it has seen before only once.

## Implementation notes

`add` returns a reference to a hash of `items`. The reference is the position of the hash, which
no later call moves. Besides `add` the callers only write the comment of a hash.
-/

namespace Amed.Generator

open Brackets Delimited

/-- A hash of `items`. -/
structure SequenceItem where
  data : List Char
  index : Nat
  iindex : Nat
  comment : Option (List Char)

structure Sequence where
  type : List Char
  name : List Char
  seen : List Char → Option Nat
  items : List SequenceItem
  index : Nat

/-- The text that an array is seen by. -/
def joined (array : List (List Char)) : List Char := [',', ' '].intercalate array

namespace Sequence

def new (name type : List Char) : Sequence where
  type := type
  name := name
  seen := fun _ => none
  items := []
  index := 0

/-- The sequence behind an array that is not in `seen`. -/
def push (s : Sequence) (array : List (List Char)) : Sequence :=
  { s with
    items := s.items ++
      [{ data := joined array, index := s.index, iindex := s.items.length, comment := none }]
    seen := fun txt => if txt = joined array then some s.items.length else s.seen txt
    index := s.index + array.length }

/-- `add`, with the sequence it leaves. -/
def add (s : Sequence) (array : List (List Char)) : Nat × Sequence :=
  match s.seen (joined array) with
  | some entry => (entry, s)
  | none => (s.items.length, s.push array)

/-- What a caller does with the entry that `add` returned to it. -/
def setComment (s : Sequence) (entry : Nat) (comment : List Char) : Sequence :=
  { s with items := s.items.modify entry fun item => { item with comment := some comment } }

end Sequence

/-! ## The table -/

/-- The text that `$comment and printf` writes: nothing for a false value. -/
def commentText : Option (List Char) → List Char
  | none => []
  | some comment => if comment = [] ∨ comment = ['0'] then [] else " // ".toList ++ comment

def SequenceItem.text (item : SequenceItem) : List Char :=
  "  /* ".toList ++ (Printing.decimal item.index).rightpad 4 ' ' ++ " */ ".toList ++ item.data ++
    [','] ++ commentText item.comment ++ ['\n']

def Sequence.generate (s : Sequence) : List Char :=
  "const ".toList ++ s.type ++ [' '] ++ s.name ++ "[] = \n".toList ++ "\x7b\n".toList ++
    s.items.flatMap SequenceItem.text ++ "\x7d;\n\n".toList

/-- The side of a character among the braces. -/
def brace (a : Char) : Side :=
  if a = '\x7b' then .opening else if a = '\x7d' then .closing else .plain

/-- The elements on a line of the table. -/
def SequenceItem.elements (item : SequenceItem) : List (List Char) :=
  pieces brace ',' ' ' 0 item.data

/-- The elements of the table that `generate` writes. -/
def Sequence.table (s : Sequence) : List (List Char) := s.items.flatMap SequenceItem.elements

/-! ## Runs -/

inductive SequenceCall
  | add (array : List (List Char))
  | comment (entry : Nat) (comment : List Char)

def SequenceCall.array : SequenceCall → Option (List (List Char))
  | .add array => some array
  | .comment _ _ => none

/-- A call of `add`, with the entry it returned and the index that the caller finds there. -/
structure Added where
  array : List (List Char)
  entry : Nat
  index : Option Nat
  deriving DecidableEq

structure SequenceRun where
  sequence : Sequence
  log : List Added

def SequenceRun.call (r : SequenceRun) : SequenceCall → SequenceRun
  | .add array =>
      let added := r.sequence.add array
      { sequence := added.2
        log := r.log ++ [{
          array := array
          entry := added.1
          index := added.2.items[added.1]?.map SequenceItem.index }] }
  | .comment entry comment => { r with sequence := r.sequence.setComment entry comment }

def Sequence.run (name type : List Char) (calls : List SequenceCall) : SequenceRun :=
  calls.foldl SequenceRun.call { sequence := .new name type, log := [] }

/-- The indices that `add` returned are those of the table in the end, and its entries tell the
arrays apart. -/
structure SequenceRun.Addressed (r : SequenceRun) (calls : List SequenceCall) : Prop where
  log : r.log.map Added.array = calls.filterMap SequenceCall.array
  index : ∀ a ∈ r.log, ∃ index, a.index = some index ∧
    (r.sequence.table.drop index).take a.array.length = a.array
  entry : ∀ a ∈ r.log, ∀ b ∈ r.log, a.entry = b.entry ↔ a.array = b.array

/-! ## The invariant -/

/-- What a sequence holds behind the arrays that it did not know. -/
structure Sequence.Holds (s : Sequence) (arrays : List (List (List Char))) : Prop where
  length : s.items.length = arrays.length
  item : ∀ i, s.items[i]?.map (fun item => (item.data, item.index, item.iindex)) =
    arrays[i]?.map fun array => (joined array, (arrays.take i).flatten.length, i)
  index : s.index = arrays.flatten.length
  seen : ∀ txt i, s.seen txt = some i ↔ (arrays.map joined)[i]? = some txt

namespace Sequence

variable {s : Sequence} {arrays : List (List (List Char))}

theorem new_holds (name type : List Char) : (new name type).Holds [] where
  length := rfl
  item _ := rfl
  index := rfl
  seen txt i := by simp [new]

theorem Holds.setComment (h : s.Holds arrays) (entry : Nat) (comment : List Char) :
    (s.setComment entry comment).Holds arrays where
  length := by rw [Sequence.setComment, List.length_modify, h.length]
  item i := by
    rw [← h.item i, Sequence.setComment, List.getElem?_modify]
    cases s.items[i]? with
    | none => rfl
    | some item =>
        rw [Option.map_eq_map, Option.map_some, Option.map_some, Option.map_some]
        split <;> rfl
  index := h.index
  seen := h.seen

/-- A text that is not in `seen` belongs to none of the arrays. -/
theorem Holds.push (h : s.Holds arrays) {array : List (List Char)}
    (hseen : s.seen (joined array) = none) : (s.push array).Holds (arrays ++ [array]) where
  length := by simp [Sequence.push, h.length]
  item i := by
    rw [Sequence.push]
    dsimp only
    obtain hi | rfl | hi := Nat.lt_trichotomy i arrays.length
    · rw [List.getElem?_append_left (h.length ▸ hi), List.getElem?_append_left hi, h.item i,
        List.take_append_of_le_length (Nat.le_of_lt hi)]
    · rw [List.getElem?_concat_length, ← h.length, List.getElem?_concat_length, h.length,
        List.take_left, h.index]
      rfl
    · rw [List.getElem?_eq_none (by simp [h.length]; omega),
        List.getElem?_eq_none (by simp; omega)]
      rfl
  index := by simp [Sequence.push, h.index]
  seen txt i := by
    have hnew (j : Nat) : (arrays.map joined)[j]? ≠ some (joined array) := fun hj => by
      rw [(h.seen _ j).mpr hj] at hseen
      cases hseen
    rw [List.map_append, List.map_singleton, Numbering.getElem?_concat_eq_some_iff, List.length_map,
      ← h.length, Sequence.push]
    dsimp only
    by_cases htxt : txt = joined array
    · rw [if_pos htxt, htxt, Option.some_inj]
      constructor
      · intro hi
        exact .inr ⟨hi.symm, rfl⟩
      · rintro (hi | ⟨rfl, -⟩)
        · exact absurd hi (hnew i)
        · rfl
    · rw [if_neg htxt, h.seen]
      constructor
      · exact .inl
      · rintro (hi | ⟨-, heq⟩)
        · exact hi
        · exact absurd heq.symm htxt

/-- The entry that `add` returns holds the text of the array. The arrays known before keep their
places. -/
theorem Holds.add (h : s.Holds arrays) (array : List (List Char)) :
    ∃ more, (s.add array).2.Holds (arrays ++ more) ∧ (∀ a ∈ more, a = array) ∧
      ((arrays ++ more).map joined)[(s.add array).1]? = some (joined array) := by
  rw [Sequence.add]
  cases hseen : s.seen (joined array) with
  | some entry =>
      refine ⟨[], ?_, fun a ha => absurd ha List.not_mem_nil, ?_⟩
      · rwa [List.append_nil]
      · rw [List.append_nil]
        exact (h.seen _ _).mp hseen
  | none =>
      refine ⟨[array], h.push hseen, fun a ha => List.mem_singleton.mp ha, ?_⟩
      dsimp only
      rw [List.map_append, List.map_singleton, Numbering.getElem?_concat_eq_some_iff, List.length_map]
      exact .inr ⟨h.length, rfl⟩

/-- An entry starts behind all elements of the arrays before it. -/
theorem Holds.index_of_entry (h : s.Holds arrays) {entry : Nat} (hentry : entry < arrays.length) :
    s.items[entry]?.map SequenceItem.index = some (arrays.take entry).flatten.length := by
  have hitem := congrArg (Option.map fun key => key.2.1) (h.item entry)
  rw [List.getElem?_eq_getElem hentry, Option.map_map] at hitem
  exact hitem

theorem Holds.table_eq (h : s.Holds arrays)
    (hpieces : ∀ array ∈ arrays, pieces brace ',' ' ' 0 (joined array) = array) :
    s.table = arrays.flatten := by
  have hitems : s.items.map SequenceItem.elements = arrays := by
    apply List.ext_getElem?
    intro i
    have hdata := congrArg (Option.map fun key => pieces brace ',' ' ' 0 key.1) (h.item i)
    rw [Option.map_map, Option.map_map] at hdata
    rw [List.getElem?_map]
    refine hdata.trans ?_
    cases hi : arrays[i]? with
    | none => rfl
    | some array => exact congrArg some (hpieces array (List.mem_of_getElem? hi))
  rw [table, List.flatMap_def, hitems]

end Sequence

/-! ## The runs -/

/-- What the log of a run tells of the arrays that the sequence knows in the end. -/
def Added.Known (arrays : List (List (List Char))) (a : Added) : Prop :=
  (arrays.map joined)[a.entry]? = some (joined a.array) ∧
    a.index = some (arrays.take a.entry).flatten.length

theorem Added.Known.entry_lt {arrays : List (List (List Char))} {a : Added}
    (h : a.Known arrays) : a.entry < arrays.length := by
  have hlt := (List.getElem?_eq_some_iff.mp h.1).choose
  rwa [List.length_map] at hlt

theorem Added.Known.append {arrays : List (List (List Char))} {a : Added} (h : a.Known arrays)
    (more : List (List (List Char))) : a.Known (arrays ++ more) := by
  have hlt := h.entry_lt
  constructor
  · rw [List.map_append, List.getElem?_append_left (by rwa [List.length_map])]
    exact h.1
  · rw [List.take_append_of_le_length (Nat.le_of_lt hlt)]
    exact h.2

structure SequenceRun.Holds (r : SequenceRun) (calls : List SequenceCall)
    (arrays : List (List (List Char))) : Prop where
  sequence : r.sequence.Holds arrays
  log : r.log.map Added.array = calls.filterMap SequenceCall.array
  known : ∀ a ∈ r.log, a.Known arrays
  added : ∀ array ∈ arrays, array ∈ calls.filterMap SequenceCall.array

theorem SequenceRun.Holds.call {r : SequenceRun} {calls : List SequenceCall}
    {arrays : List (List (List Char))} (h : r.Holds calls arrays) (c : SequenceCall) :
    ∃ more, (r.call c).Holds (calls ++ [c]) (arrays ++ more) := by
  cases c with
  | comment entry comment =>
      refine ⟨[], ?_⟩
      rw [List.append_nil]
      constructor
      · exact h.sequence.setComment entry comment
      · rw [List.filterMap_append]
        exact h.log.trans (List.append_nil _).symm
      · exact h.known
      · intro array ha
        rw [List.filterMap_append]
        exact List.mem_append_left _ (h.added array ha)
  | add array =>
      obtain ⟨more, hsequence, hmore, hentry⟩ := h.sequence.add array
      refine ⟨more, hsequence, ?_, ?_, ?_⟩
      · rw [SequenceRun.call, List.map_append, List.filterMap_append, h.log]
        rfl
      · intro a ha
        obtain ha | ha := List.mem_append.mp ha
        · exact (h.known a ha).append more
        · obtain rfl := List.mem_singleton.mp ha
          refine ⟨hentry, hsequence.index_of_entry ?_⟩
          have hlt := (List.getElem?_eq_some_iff.mp hentry).choose
          rwa [List.length_map] at hlt
      · intro b hb
        rw [List.filterMap_append]
        obtain hb | hb := List.mem_append.mp hb
        · exact List.mem_append_left _ (h.added b hb)
        · obtain rfl := hmore b hb
          exact List.mem_append_right _ (List.mem_singleton.mpr rfl)

theorem Sequence.run_holds (name type : List Char) (calls : List SequenceCall) :
    ∃ arrays, (Sequence.run name type calls).Holds calls arrays := by
  induction calls using List.reverseRecOn with
  | nil =>
      exact ⟨[], new_holds name type, rfl, fun a ha => absurd ha List.not_mem_nil,
        fun a ha => absurd ha List.not_mem_nil⟩
  | append_singleton calls c ih =>
      obtain ⟨arrays, h⟩ := ih
      obtain ⟨more, hcall⟩ := h.call c
      refine ⟨arrays ++ more, ?_⟩
      rw [run, List.foldl_append]
      exact hcall

/-- A list of lists is found in the flattened one behind all the lists before it. -/
theorem take_drop_flatten {α : Type*} {ls : List (List α)} {i : Nat} {l : List α}
    (h : ls[i]? = some l) : (ls.flatten.drop (ls.take i).flatten.length).take l.length = l := by
  obtain ⟨hi, rfl⟩ := List.getElem?_eq_some_iff.mp h
  have hsplit : ls.flatten = (ls.take i).flatten ++ (ls[i] ++ (ls.drop (i + 1)).flatten) := by
    rw [← List.flatten_cons, ← List.flatten_append, List.getElem_cons_drop, List.take_append_drop]
  rw [hsplit, List.drop_left, List.take_left]

theorem SequenceCall.mem_arrays {calls : List SequenceCall} {array : List (List Char)}
    (h : array ∈ calls.filterMap SequenceCall.array) : .add array ∈ calls := by
  obtain ⟨c, hc, harray⟩ := List.mem_filterMap.mp h
  cases c with
  | add b =>
      cases harray
      exact hc
  | comment entry comment => cases harray

/-- An element as the callers write it: its braces are matched, and enclose all its separators. -/
def IsElement (e : List Char) : Prop := Balanced brace e ∧ Enclosed brace ',' ' ' e

theorem balanced_of_plain {text : List Char} (h : ∀ c ∈ text, brace c = .plain) :
    Balanced brace text := by
  induction text with
  | nil => exact .nil
  | cons c text ih =>
      obtain ⟨hc, htext⟩ := List.forall_mem_cons.mp h
      exact .plain hc (ih htext)

/-- A text without braces and separators. -/
theorem isElement_of_forall {text : List Char} (h : ∀ c ∈ text, brace c = .plain ∧ c ≠ ',') :
    IsElement text :=
  ⟨balanced_of_plain fun c hc => (h c hc).1, enclosed_of_not_mem fun hmem => (h _ hmem).2 rfl⟩

theorem pieces_joined {array : List (List Char)} (hne : array ≠ [])
    (h : ∀ e ∈ array, IsElement e) : pieces brace ',' ' ' 0 (joined array) = array :=
  pieces_intercalate (by decide) hne h

theorem joined_inj {a b : List (List Char)} (ha : a ≠ []) (hb : b ≠ [])
    (hea : ∀ e ∈ a, IsElement e) (heb : ∀ e ∈ b, IsElement e) (h : joined a = joined b) :
    a = b :=
  intercalate_inj (by decide) ha hb hea heb h

/-- Non-empty arrays of elements are found in the table at the indices of their entries. -/
theorem Sequence.run_addressed (name type : List Char) (calls : List SequenceCall)
    (hne : ∀ array, SequenceCall.add array ∈ calls → array ≠ [])
    (helement : ∀ array, SequenceCall.add array ∈ calls → ∀ e ∈ array, IsElement e) :
    (Sequence.run name type calls).Addressed calls := by
  obtain ⟨arrays, h⟩ := run_holds name type calls
  have hlogged : ∀ a ∈ (run name type calls).log, .add a.array ∈ calls := fun a ha =>
    SequenceCall.mem_arrays (h.log ▸ List.mem_map_of_mem ha)
  have harrays : ∀ array ∈ arrays, .add array ∈ calls := fun array ha =>
    SequenceCall.mem_arrays (h.added array ha)
  -- equal texts are those of equal arrays, so an entry has its array
  have hentry : ∀ a ∈ (run name type calls).log, arrays[a.entry]? = some a.array := by
    intro a ha
    have hknown := (h.known a ha).1
    rw [List.getElem?_map, Option.map_eq_some_iff] at hknown
    obtain ⟨array, harray, hjoined⟩ := hknown
    have hadded := harrays array (List.mem_of_getElem? harray)
    have ha' := hlogged a ha
    rw [harray, joined_inj (hne _ hadded) (hne _ ha') (helement _ hadded) (helement _ ha') hjoined]
  refine ⟨h.log, fun a ha => ?_, fun a ha b hb => ?_⟩
  · refine ⟨_, (h.known a ha).2, ?_⟩
    rw [h.sequence.table_eq fun array harray =>
      pieces_joined (hne _ (harrays _ harray)) (helement _ (harrays _ harray))]
    exact take_drop_flatten (hentry a ha)
  · constructor
    · intro heq
      have hb' := hentry b hb
      rw [← heq, hentry a ha] at hb'
      exact Option.some.inj hb'
    · intro heq
      have hseen := fun c hc => (h.sequence.seen (joined c.array) c.entry).mpr (h.known c hc).1
      have ha' := hseen a ha
      rw [heq, hseen b hb] at ha'
      exact (Option.some.inj ha').symm

/-- `{0, 1}` and `0` behind each other, with a comment on their entry, `0` alone and both again. -/
theorem Sequence.run_addressed_three :
    (Sequence.run [] [] [.add [['\x7b', '0', ',', ' ', '1', '\x7d'], ['0']], .comment 0 ['m'],
      .add [['0']], .add [['\x7b', '0', ',', ' ', '1', '\x7d'], ['0']]]).Addressed
        [.add [['\x7b', '0', ',', ' ', '1', '\x7d'], ['0']], .comment 0 ['m'],
          .add [['0']], .add [['\x7b', '0', ',', ' ', '1', '\x7d'], ['0']]] := by
  have hplain : Balanced brace ['0', ',', ' ', '1'] :=
    .plain rfl (.plain rfl (.plain rfl (.plain rfl .nil)))
  have hpair : IsElement ['\x7b', '0', ',', ' ', '1', '\x7d'] :=
    ⟨.pair rfl rfl hplain .nil, enclosed_brackets rfl rfl rfl rfl hplain⟩
  have hzero : IsElement ['0'] := ⟨.plain rfl .nil, enclosed_of_not_mem (by decide)⟩
  apply Sequence.run_addressed
  · simp
  · simp [hpair, hzero]

/-- Elements whose separators are enclosed, but not all of whose braces are matched: the two
arrays have one text. -/
theorem Sequence.not_addressed_of_enclosed :
    ¬ ∀ (name type : List Char) (calls : List SequenceCall),
      (∀ array, SequenceCall.add array ∈ calls → array ≠ []) →
      (∀ array, SequenceCall.add array ∈ calls → ∀ e ∈ array, Enclosed brace ',' ' ' e) →
      (Sequence.run name type calls).Addressed calls := by
  intro h
  have hplain : Balanced brace [',', ' '] := .plain rfl (.plain rfl .nil)
  have hopen : Enclosed brace ',' ' ' ['\x7b'] := enclosed_of_not_mem (by decide)
  have hclose : Enclosed brace ',' ' ' ['\x7d'] := enclosed_of_not_mem (by decide)
  have hboth : Enclosed brace ',' ' ' ['\x7b', ',', ' ', '\x7d'] :=
    enclosed_brackets rfl rfl rfl rfl hplain
  have hrun := h [] [] [.add [['\x7b'], ['\x7d']], .add [['\x7b', ',', ' ', '\x7d']]] (by simp)
    (by simp [hopen, hclose, hboth])
  have heq := (hrun.entry ⟨[['\x7b'], ['\x7d']], 0, some 0⟩ (by decide)
    ⟨[['\x7b', ',', ' ', '\x7d']], 0, some 0⟩ (by decide)).mp rfl
  cases heq

/-! ## Arrays in their places -/

/-- A sequence behind arrays of elements. -/
structure Sequence.Filled (s : Sequence) (arrays : List (List (List Char))) : Prop
    extends s.Holds arrays where
  nonempty : ∀ array ∈ arrays, array ≠ []
  elements : ∀ array ∈ arrays, ∀ e ∈ array, IsElement e

/-- An array is known, and its elements start at the index. -/
def Placed (arrays : List (List (List Char))) (index : Nat) (array : List (List Char)) : Prop :=
  ∃ entry, arrays[entry]? = some array ∧ index = (arrays.take entry).flatten.length

theorem Placed.append {arrays : List (List (List Char))} {index : Nat} {array : List (List Char)}
    (h : Placed arrays index array) (more : List (List (List Char))) :
    Placed (arrays ++ more) index array := by
  obtain ⟨entry, hentry, hindex⟩ := h
  have hlt := (List.getElem?_eq_some_iff.mp hentry).choose
  refine ⟨entry, ?_, ?_⟩
  · rw [List.getElem?_append_left hlt, hentry]
  · rw [List.take_append_of_le_length (Nat.le_of_lt hlt), hindex]

namespace Sequence

variable {s : Sequence} {arrays : List (List (List Char))}

theorem new_filled (name type : List Char) : (new name type).Filled [] where
  toHolds := new_holds name type
  nonempty _ h := absurd h List.not_mem_nil
  elements _ h := absurd h List.not_mem_nil

theorem Filled.setComment (h : s.Filled arrays) (entry : Nat) (comment : List Char) :
    (s.setComment entry comment).Filled arrays where
  toHolds := h.toHolds.setComment entry comment
  nonempty := h.nonempty
  elements := h.elements

/-- `add` returns the place of the array. -/
theorem Filled.add (h : s.Filled arrays) {array : List (List Char)} (hne : array ≠ [])
    (helements : ∀ e ∈ array, IsElement e) :
    ∃ more, (s.add array).2.Filled (arrays ++ more) ∧
      ∃ index, (s.add array).2.items[(s.add array).1]?.map SequenceItem.index = some index ∧
        Placed (arrays ++ more) index array := by
  obtain ⟨more, hholds, hmore, hentry⟩ := h.toHolds.add array
  have hnonempty : ∀ a ∈ arrays ++ more, a ≠ [] := by
    intro a ha
    obtain ha | ha := List.mem_append.mp ha
    · exact h.nonempty a ha
    · exact hmore a ha ▸ hne
  have helements' : ∀ a ∈ arrays ++ more, ∀ e ∈ a, IsElement e := by
    intro a ha
    obtain ha | ha := List.mem_append.mp ha
    · exact h.elements a ha
    · exact hmore a ha ▸ helements
  rw [List.getElem?_map, Option.map_eq_some_iff] at hentry
  obtain ⟨a, ha, hjoined⟩ := hentry
  -- equal texts are those of equal arrays
  have hmem := List.mem_of_getElem? ha
  rw [joined_inj (hnonempty a hmem) hne (helements' a hmem) helements hjoined] at ha
  exact ⟨more, ⟨hholds, hnonempty, helements'⟩, _,
    hholds.index_of_entry (List.getElem?_eq_some_iff.mp ha).choose, _, ha, rfl⟩

theorem Filled.table_eq (h : s.Filled arrays) : s.table = arrays.flatten :=
  h.toHolds.table_eq fun array harray =>
    pieces_joined (h.nonempty array harray) (h.elements array harray)

/-- The table has the elements of an array from its place on. -/
theorem Filled.table_of_placed (h : s.Filled arrays) {index : Nat} {array : List (List Char)}
    (hplaced : Placed arrays index array) : ∃ rest, s.table.drop index = array ++ rest := by
  obtain ⟨entry, hentry, rfl⟩ := hplaced
  obtain ⟨hlt, rfl⟩ := List.getElem?_eq_some_iff.mp hentry
  refine ⟨(arrays.drop (entry + 1)).flatten, ?_⟩
  have hsplit : arrays.flatten =
      (arrays.take entry).flatten ++ (arrays[entry] ++ (arrays.drop (entry + 1)).flatten) := by
    rw [← List.flatten_cons, ← List.flatten_append, List.getElem_cons_drop, List.take_append_drop]
  rw [h.table_eq, hsplit, List.drop_left]

theorem Placed.lt (h : s.Filled arrays) {index : Nat} {array : List (List Char)}
    (hplaced : Placed arrays index array) : index < s.table.length := by
  obtain ⟨rest, hrest⟩ := h.table_of_placed hplaced
  obtain ⟨entry, hentry, -⟩ := hplaced
  have hne := h.nonempty array (List.mem_of_getElem? hentry)
  by_contra hle
  rw [List.drop_eq_nil_of_le (Nat.le_of_not_lt hle)] at hrest
  exact hne (List.append_eq_nil_iff.mp hrest.symm).1

end Sequence

end Amed.Generator
