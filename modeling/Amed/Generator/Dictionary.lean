import Mathlib.Data.List.Induction
import Amed.Library.Numerals

/-!
# Definitions of one file

`Generator::Dictionary` collects definitions of C objects, each under a name of its own. Where it is
not told that the names are unique, it numbers them and keeps a definition that it has seen before
only once: it knows a definition by its data, whatever its name and its type.

## Implementation notes

`add` returns a reference to a hash of `items`. The reference is the position of the hash, which
no later call moves. Besides `add` the callers only write the comment of a hash.
-/

namespace Amed.Generator

/-- A hash of `items`. -/
structure DictionaryItem where
  data : List Char
  index : Nat
  name : List Char
  type : List Char
  link : List Char
  comment : Option (List Char) := none
  deriving DecidableEq, Repr

structure Dictionary where
  isUniq : Bool
  seen : List Char → Option Nat := fun _ => none
  names : List Char → Nat := fun _ => 0
  items : List DictionaryItem := []

namespace Dictionary

def new (uniq : Bool) : Dictionary := { isUniq := uniq }

/-- The name under which the next object is defined. -/
def nextLink (d : Dictionary) (name : List Char) : List Char :=
  if d.isUniq then name else name ++ Printing.decimal (d.names name)

/-- The dictionary behind one more definition. -/
def push (d : Dictionary) (name type data : List Char) : Dictionary :=
  { d with
    names := fun key => if !d.isUniq && key = name then d.names name + 1 else d.names key
    items := d.items ++ [{
      data := data
      index := d.items.length
      name := name
      type := type
      link := d.nextLink name }]
    seen := fun key => if key = data then some d.items.length else d.seen key }

/-- `add`, with the dictionary it leaves. -/
def add (d : Dictionary) (name type data : List Char) : Nat × Dictionary :=
  if d.isUniq then (d.items.length, d.push name type data)
  else
    match d.seen data with
    | some entry => (entry, d)
    | none => (d.items.length, d.push name type data)

/-- What a caller does with the entry that `add` returned to it. -/
def setComment (d : Dictionary) (entry : Nat) (comment : List Char) : Dictionary :=
  { d with items := d.items.modify entry fun item => { item with comment := some comment } }

/-- The dictionary only grew: what it defined before it still defines, at the same place. -/
def Grows (d d' : Dictionary) : Prop :=
  ∀ (entry : Nat) (item : DictionaryItem), d.items[entry]? = some item →
    ∃ comment, d'.items[entry]? = some { item with comment := comment }

theorem Grows.refl (d : Dictionary) : d.Grows d := fun _ item h => ⟨item.comment, h⟩

theorem Grows.trans {d d' d'' : Dictionary} (h : d.Grows d') (h' : d'.Grows d'') : d.Grows d'' := by
  intro entry item hitem
  obtain ⟨comment, hkept⟩ := h entry item hitem
  obtain ⟨comment', hkept'⟩ := h' entry { item with comment := comment } hkept
  exact ⟨comment', hkept'⟩

theorem grows_push (d : Dictionary) (name type data : List Char) :
    d.Grows (d.push name type data) := by
  intro entry item hitem
  have hlt := (List.getElem?_eq_some_iff.mp hitem).choose
  exact ⟨item.comment, (List.getElem?_append_left hlt).trans hitem⟩

/-- The number of definitions with a name. -/
def count (items : List DictionaryItem) (name : List Char) : Nat :=
  items.countP fun item => item.name = name

/-- What a dictionary that numbers its names holds. -/
structure Holds (d : Dictionary) : Prop where
  isUniq : d.isUniq = false
  index : ∀ (i : Nat) (item : DictionaryItem), d.items[i]? = some item → item.index = i
  seen : ∀ data i, d.seen data = some i ↔ (d.items.map DictionaryItem.data)[i]? = some data
  names : ∀ name, d.names name = count d.items name
  link : ∀ (i : Nat) (item : DictionaryItem), d.items[i]? = some item →
    item.link = item.name ++ Printing.decimal (count (d.items.take i) item.name)

theorem new_holds : (new false).Holds where
  isUniq := rfl
  index i item h := by cases h
  seen data i := by simp [new]
  names name := rfl
  link i item h := by cases h

variable {d : Dictionary}

/-- A definition keeps all but its comment. -/
theorem getElem?_setComment (d : Dictionary) (entry : Nat) (comment : List Char) (i : Nat) :
    ∃ comment' : DictionaryItem → Option (List Char), (d.setComment entry comment).items[i]? =
      (d.items[i]?).map fun item => { item with comment := comment' item } := by
  by_cases hi : entry = i
  · exact ⟨fun _ => some comment, by simp [setComment, hi]⟩
  · exact ⟨DictionaryItem.comment, by simp [setComment, hi]⟩

theorem grows_setComment (d : Dictionary) (entry : Nat) (comment : List Char) :
    d.Grows (d.setComment entry comment) := by
  intro i item hitem
  obtain ⟨comment', hi⟩ := d.getElem?_setComment entry comment i
  exact ⟨comment' item, by rw [hi, hitem]; rfl⟩

theorem map_setComment {β : Type*} {f : DictionaryItem → β}
    (hf : ∀ item comment, f { item with comment := comment } = f item) (d : Dictionary)
    (entry : Nat) (comment : List Char) :
    (d.setComment entry comment).items.map f = d.items.map f := by
  apply List.ext_getElem?
  intro i
  obtain ⟨comment', hi⟩ := d.getElem?_setComment entry comment i
  rw [List.getElem?_map, List.getElem?_map, hi, Option.map_map]
  congr 1
  funext item
  exact hf item _

theorem count_eq_map (items : List DictionaryItem) (name : List Char) :
    count items name = (items.map DictionaryItem.name).countP fun key => key = name := by
  rw [count, List.countP_map]
  rfl

theorem Holds.setComment (h : d.Holds) (entry : Nat) (comment : List Char) :
    (d.setComment entry comment).Holds where
  isUniq := h.isUniq
  index i item hitem := by
    obtain ⟨comment', hi⟩ := d.getElem?_setComment entry comment i
    rw [hi] at hitem
    obtain ⟨item', hitem', rfl⟩ := Option.map_eq_some_iff.mp hitem
    exact h.index i item' hitem'
  seen data i := by
    rw [map_setComment (fun _ _ => rfl)]
    exact h.seen data i
  names name := by
    rw [count_eq_map, map_setComment (fun _ _ => rfl), ← count_eq_map]
    exact h.names name
  link i item hitem := by
    obtain ⟨comment', hi⟩ := d.getElem?_setComment entry comment i
    rw [hi] at hitem
    obtain ⟨item', hitem', rfl⟩ := Option.map_eq_some_iff.mp hitem
    rw [count_eq_map, List.map_take, map_setComment (fun _ _ => rfl), ← List.map_take,
      ← count_eq_map]
    exact h.link i item' hitem'

/-- The last definition of a longer list. -/
theorem getElem?_push (d : Dictionary) (name type data : List Char) {i : Nat}
    {item : DictionaryItem} (h : (d.push name type data).items[i]? = some item) :
    d.items[i]? = some item ∨ i = d.items.length ∧ item =
      { data := data, index := d.items.length, name := name, type := type
        link := d.nextLink name } := by
  obtain hi | rfl | hi := Nat.lt_trichotomy i d.items.length
  · left
    rwa [push, List.getElem?_append_left hi] at h
  · right
    rw [push, List.getElem?_concat_length, Option.some_inj] at h
    exact ⟨rfl, h.symm⟩
  · rw [push, List.getElem?_eq_none (by simp; omega)] at h
    cases h

/-- Data that is not in `seen` belongs to no definition. -/
theorem Holds.push (h : d.Holds) (name type : List Char) {data : List Char}
    (hseen : d.seen data = none) : (d.push name type data).Holds where
  isUniq := h.isUniq
  index i item hitem := by
    obtain hitem | ⟨rfl, rfl⟩ := getElem?_push d name type data hitem
    · exact h.index i item hitem
    · rfl
  seen key i := by
    have hnew : ∀ j, (d.items.map DictionaryItem.data)[j]? ≠ some data := fun j hj => by
      rw [(h.seen _ j).mpr hj] at hseen
      cases hseen
    change (if key = data then some d.items.length else d.seen key) = some i ↔
      ((d.items ++ [_]).map DictionaryItem.data)[i]? = some key
    rw [List.map_append, List.map_singleton]
    obtain hi | rfl | hi := Nat.lt_trichotomy i d.items.length
    · rw [List.getElem?_append_left (by rwa [List.length_map]), ← h.seen]
      by_cases hkey : key = data
      · rw [if_pos hkey, hkey, hseen]
        simp [Nat.ne_of_gt hi]
      · rw [if_neg hkey]
    · have hlength : (d.items.map DictionaryItem.data).length = d.items.length :=
        List.length_map DictionaryItem.data
      rw [← hlength, List.getElem?_concat_length, Option.some_inj]
      by_cases hkey : key = data
      · rw [if_pos hkey, hkey]
        simp
      · rw [if_neg hkey, h.seen, List.getElem?_eq_none (Nat.le_refl _)]
        simp [Ne.symm hkey]
    · rw [List.getElem?_eq_none (by simp; omega)]
      by_cases hkey : key = data
      · rw [if_pos hkey]
        simp [Nat.ne_of_lt hi]
      · rw [if_neg hkey, h.seen, List.getElem?_eq_none (by simp; omega)]
  names key := by
    change (if !d.isUniq && key = name then d.names name + 1 else d.names key) =
      count (d.items ++ [_]) key
    rw [count, List.countP_append, ← count, ← h.names key, h.isUniq]
    by_cases hkey : key = name
    · simp [hkey]
    · simp [hkey, Ne.symm hkey]
  link i item hitem := by
    obtain hold | ⟨rfl, rfl⟩ := getElem?_push d name type data hitem
    · have hlt := (List.getElem?_eq_some_iff.mp hold).choose
      change item.link = item.name ++ Printing.decimal (count ((d.items ++ [_]).take i) item.name)
      rw [List.take_append_of_le_length (Nat.le_of_lt hlt)]
      exact h.link i item hold
    · change d.nextLink name = name ++ Printing.decimal (count ((d.items ++ [_]).take _) name)
      rw [List.take_left, nextLink, h.isUniq, ← h.names]
      rfl

/-- What `add` does: the definition it returns has the data, and the others stay. -/
structure Adds (d : Dictionary) (data : List Char) (added : Nat × Dictionary) : Prop where
  holds : added.2.Holds
  grows : d.Grows added.2
  defined : ∃ item, added.2.items[added.1]? = some item ∧ item.data = data ∧ item.index = added.1

theorem Holds.add (h : d.Holds) (name type data : List Char) :
    d.Adds data (d.add name type data) := by
  rw [Dictionary.add, h.isUniq, if_neg Bool.false_ne_true]
  cases hseen : d.seen data with
  | some entry =>
      have hdata := (h.seen data entry).mp hseen
      rw [List.getElem?_map] at hdata
      obtain ⟨item, hitem, hdata⟩ := Option.map_eq_some_iff.mp hdata
      exact ⟨h, .refl d, item, hitem, hdata, h.index entry item hitem⟩
  | none =>
      exact ⟨h.push name type hseen, d.grows_push name type data, _, List.getElem?_concat_length,
        rfl, rfl⟩

/-- No data is defined twice. -/
theorem Holds.data_inj (h : d.Holds) {i j : Nat} {a b : DictionaryItem} (ha : d.items[i]? = some a)
    (hb : d.items[j]? = some b) (heq : a.data = b.data) : i = j := by
  have hi : d.seen a.data = some i := (h.seen _ _).mpr (by rw [List.getElem?_map, ha]; rfl)
  have hj : d.seen a.data = some j := (h.seen _ _).mpr (by rw [List.getElem?_map, hb, heq]; rfl)
  exact Option.some.inj (hi.symm.trans hj)

/-- The digits that a name ends with, if any, are zeros. -/
def endsInZeros (name : List Char) : Bool := (name.reverse.takeWhile Char.isDigit).all (· = '0')

theorem exists_stem {name : List Char} (h : endsInZeros name = true) :
    ∃ stem k, name = stem ++ List.replicate k '0' ∧ ∀ c ∈ stem.getLast?, c.isDigit = false := by
  rw [endsInZeros, List.all_eq_true] at h
  have hzeros := List.eq_replicate_of_mem fun c hc => of_decide_eq_true (h c hc)
  have hname : name = (name.reverse.dropWhile Char.isDigit).reverse ++
      (name.reverse.takeWhile Char.isDigit).reverse := by
    rw [← List.reverse_append, List.takeWhile_append_dropWhile, List.reverse_reverse]
  rw [hzeros, List.reverse_replicate] at hname
  refine ⟨_, _, hname, ?_⟩
  rw [List.getLast?_reverse]
  intro c hc
  have hhead := List.head?_dropWhile_not Char.isDigit name.reverse
  rw [Option.mem_def.mp hc] at hhead
  simpa using hhead

/-- A number behind a name can be told from the name: a numeral has no leading zeros, and the name
ends in no other digit. -/
theorem append_decimal_inj {name name' : List Char} (h : endsInZeros name = true)
    (h' : endsInZeros name' = true) {n m : Nat}
    (heq : name ++ Printing.decimal n = name' ++ Printing.decimal m) : name = name' ∧ n = m := by
  obtain ⟨stem, k, rfl, hstem⟩ := exists_stem h
  obtain ⟨stem', k', rfl, hstem'⟩ := exists_stem h'
  -- the digits are cut off from both texts
  have hcut {stem : List Char} (h : ∀ c ∈ stem.getLast?, c.isDigit = false) (k n : Nat) :
      ((stem ++ List.replicate k '0') ++ Printing.decimal n).reverse.dropWhile Char.isDigit =
        stem.reverse := by
    have hdigits : ∀ c ∈ (List.replicate k '0' ++ Printing.decimal n).reverse,
        c.isDigit = true := by
      intro c hc
      obtain hc | hc := List.mem_append.mp (List.mem_reverse.mp hc)
      · rw [List.eq_of_mem_replicate hc]
        decide
      · exact Printing.forall_toDigits (by decide) (P := (Char.isDigit · = true)) (by decide) n c hc
    rw [List.append_assoc, List.reverse_append, List.dropWhile_append_of_pos hdigits]
    rw [← List.head?_reverse] at h
    cases hreverse : stem.reverse with
    | nil => rfl
    | cons c rest =>
        rw [hreverse] at h
        exact List.dropWhile_cons_of_neg (by rw [h c rfl]; exact Bool.false_ne_true)
  have hsame : stem = stem' := by
    have hreverse := hcut hstem k n
    rw [heq, hcut hstem' k' m] at hreverse
    exact (List.reverse_inj.mp hreverse).symm
  subst hsame
  rw [List.append_assoc, List.append_assoc, List.append_cancel_left_eq] at heq
  have hread (k n : Nat) :
      Printing.readDigits 10 (List.replicate k '0' ++ Printing.decimal n) 0 = some n := by
    rw [Printing.readDigits_append, Printing.readDigits_zeros 10 k (by decide), Option.bind_some]
    exact Printing.readDigits_toDigits (by decide) (by decide) n
  have hnumber : n = m := by
    have hn := hread k n
    rw [heq, hread k' m] at hn
    exact (Option.some.inj hn).symm
  subst hnumber
  exact ⟨by rw [List.append_cancel_right heq], rfl⟩

/-- The definitions have links of their own where no name ends with a digit but zeros. -/
theorem Holds.link_inj (h : d.Holds)
    (hnames : ∀ item ∈ d.items, endsInZeros item.name = true) {i j : Nat}
    {a b : DictionaryItem} (ha : d.items[i]? = some a) (hb : d.items[j]? = some b)
    (heq : a.link = b.link) : i = j := by
  rw [h.link i a ha, h.link j b hb] at heq
  obtain ⟨hname, hcount⟩ := append_decimal_inj (hnames a (List.mem_of_getElem? ha))
    (hnames b (List.mem_of_getElem? hb)) heq
  -- a definition counts among those in front of every later one
  have hlater {i j : Nat} {a b : DictionaryItem} (ha : d.items[i]? = some a)
      (hname : a.name = b.name) (hij : i < j) :
      count (d.items.take i) a.name < count (d.items.take j) b.name := by
    have hle : count (d.items.take (i + 1)) b.name ≤ count (d.items.take j) b.name :=
      (List.take_sublist_take_left (by omega)).countP_le
    have hstep : count (d.items.take (i + 1)) b.name = count (d.items.take i) a.name + 1 := by
      rw [count, List.take_add_one, ha, List.countP_append, ← hname]
      simp [count]
    omega
  obtain hij | rfl | hij := Nat.lt_trichotomy i j
  · exact absurd hcount (Nat.ne_of_lt (hlater ha hname hij))
  · rfl
  · exact absurd hcount (Nat.ne_of_gt (hlater hb hname.symm hij))

end Dictionary

end Amed.Generator
