import Mathlib.Data.List.Induction
import Amed.Library.Numbering

/-!
# Enumerations

`Generator::Enum` collects the texts of a C enumeration, moves the marked ones to the front and
writes the enumerators and the table of their texts.

## Implementation notes

The hash `seen` holds the items by their texts, so it is read off the list. The documentation of an
item is left out, and the sorting: no caller sets `sort`. Names are ASCII.
-/

namespace Amed.Generator

open Amed.Numbering

/-- A hash of `items`. -/
structure EnumItem where
  text : List Char
  top : Bool
  bottom : Bool
  deriving DecidableEq, Repr

/-- `Generator::Enum`; no text is registered twice. -/
structure Enum where
  name : List Char
  items : List EnumItem
  distinct : (items.map EnumItem.text).Nodup

/-- The item with the given text after a caller has written into it. -/
def EnumItem.marked (item : List Char) (mark : EnumItem → EnumItem) (i : EnumItem) : EnumItem :=
  if i.text = item then mark i else i

theorem EnumItem.marked_text {mark : EnumItem → EnumItem} (hmark : ∀ i, (mark i).text = i.text)
    (item : List Char) (i : EnumItem) : (i.marked item mark).text = i.text := by
  unfold EnumItem.marked
  split
  · exact hmark i
  · rfl

/-- The order of `process`: items marked `top`, then those marked `bottom`, then the others. -/
def EnumItem.sorted (items : List EnumItem) : List EnumItem :=
  items.filter (fun i => i.top) ++ items.filter (fun i => !i.top && i.bottom) ++
    items.filter fun i => !i.top && !i.bottom

theorem EnumItem.sorted_perm (items : List EnumItem) : (EnumItem.sorted items).Perm items := by
  have hrest : (items.filter fun i => !i.top).Perm
      (items.filter (fun i => !i.top && i.bottom) ++ items.filter fun i => !i.top && !i.bottom) := by
    have hsplit := (List.filter_append_perm (fun i => i.bottom)
      (items.filter fun i : EnumItem => !i.top)).symm
    rw [List.filter_filter, List.filter_filter] at hsplit
    refine hsplit.trans (List.Perm.of_eq ?_)
    congr 1 <;> exact List.filter_congr fun i _ => Bool.and_comm _ _
  rw [EnumItem.sorted, List.append_assoc]
  exact (hrest.symm.append_left _).trans (List.filter_append_perm (fun i => i.top) items)

namespace Enum

def new (name : List Char) : Enum := ⟨name, [], List.nodup_nil⟩

def texts (e : Enum) : List (List Char) := e.items.map EnumItem.text

theorem nodup_add (e : Enum) {item : List Char} (h : item ∉ e.texts) :
    ((e.items ++ [EnumItem.mk item false false]).map EnumItem.text).Nodup := by
  rw [List.map_append, List.nodup_append]
  refine ⟨e.distinct, List.nodup_singleton _, fun a ha b hb => ?_⟩
  obtain rfl := List.mem_singleton.mp hb
  rintro rfl
  exact h ha

/-- `add`. -/
def add (e : Enum) (item : List Char) : Enum :=
  if h : item ∈ e.texts then e else ⟨e.name, e.items ++ [EnumItem.mk item false false], e.nodup_add h⟩

theorem add_items (e : Enum) (item : List Char) :
    (e.add item).items =
      if item ∈ e.texts then e.items else e.items ++ [EnumItem.mk item false false] := by
  unfold add
  split <;> rfl

/-- The enumeration after a caller has written into the hash that `add` returned to it. -/
def modify (e : Enum) (item : List Char) (mark : EnumItem → EnumItem)
    (hmark : ∀ i, (mark i).text = i.text) : Enum where
  name := e.name
  items := e.items.map (EnumItem.marked item mark)
  distinct := by
    have htexts : (e.items.map (EnumItem.marked item mark)).map EnumItem.text = e.texts := by
      rw [List.map_map]
      exact List.map_congr_left fun i _ => EnumItem.marked_text hmark item i
    rw [htexts]
    exact e.distinct

/-- `add_top`. -/
def addTop (e : Enum) (item : List Char) : Enum :=
  (e.add item).modify item (fun i => { i with top := true }) fun _ => rfl

/-- `add_bottom`. -/
def addBottom (e : Enum) (item : List Char) : Enum :=
  (e.add item).modify item (fun i => { i with bottom := true }) fun _ => rfl

/-- `process`. -/
def process (e : Enum) : Enum where
  name := e.name
  items := EnumItem.sorted e.items
  distinct := ((EnumItem.sorted_perm e.items).map EnumItem.text).nodup_iff.mpr e.distinct

/-! ## The printed enumeration -/

/-- `uc`. -/
def uc (text : List Char) : List Char := text.map Char.toUpper

/-- The name of an enumerator. -/
def enumeratorName (e : Enum) (text : List Char) : List Char := uc e.name ++ '_' :: text

/-- The enumerators that `generate` writes. -/
def enumerators (e : Enum) : List (List Char) := e.process.texts.map e.enumeratorName

/-- The value of a constant in C. -/
def constant (e : Enum) (name : List Char) : Option Nat := e.enumerators.idxOf? name

/-- `value`, which `process` sets for the items. -/
def value (e : Enum) (text : List Char) : Option Nat := e.process.texts.idxOf? text

/-- The printed `_to_string`: `none` is a failed assertion. -/
def toString (e : Enum) (value : Nat) : Option (List Char) := e.process.texts[value]?

/-- The printed `_MAX_TEXT_LENGTH`. -/
def maxTextLength (e : Enum) : Nat :=
  (e.process.texts.map List.length).foldl max 0 + 1

end Enum

/-! ## Runs -/

inductive EnumCall
  | add (item : List Char)
  | addTop (item : List Char)
  | addBottom (item : List Char)
  deriving DecidableEq, Repr

def EnumCall.item : EnumCall → List Char
  | .add item => item
  | .addTop item => item
  | .addBottom item => item

def Enum.call (e : Enum) : EnumCall → Enum
  | .add item => e.add item
  | .addTop item => e.addTop item
  | .addBottom item => e.addBottom item

def Enum.run (name : List Char) (calls : List EnumCall) : Enum :=
  calls.foldl Enum.call (.new name)

/-- The item that some calls leave for a text. -/
def itemOf (calls : List EnumCall) (text : List Char) : EnumItem where
  text := text
  top := decide (.addTop text ∈ calls)
  bottom := decide (.addBottom text ∈ calls)

/-- The texts of some calls, in the order of their first calls. -/
def callTexts (calls : List EnumCall) : List (List Char) := (calls.map EnumCall.item).eraseDups

theorem callTexts_concat (calls : List EnumCall) (c : EnumCall) :
    callTexts (calls ++ [c]) =
      if c.item ∈ callTexts calls then callTexts calls else callTexts calls ++ [c.item] := by
  unfold callTexts
  rw [List.map_append, List.map_singleton, eraseDups_concat]
  simp only [List.mem_eraseDups]

theorem mem_callTexts {calls : List EnumCall} {text : List Char} :
    text ∈ callTexts calls ↔ ∃ c ∈ calls, c.item = text := by
  rw [callTexts, List.mem_eraseDups, List.mem_map]

/-- A text that no call has named yet is not marked. -/
theorem itemOf_of_notMem {calls : List EnumCall} {text : List Char} (h : text ∉ callTexts calls) :
    itemOf calls text = EnumItem.mk text false false := by
  rw [mem_callTexts] at h
  rw [itemOf, decide_eq_false fun hmem => h ⟨_, hmem, rfl⟩,
    decide_eq_false fun hmem => h ⟨_, hmem, rfl⟩]

namespace Enum

variable {e : Enum} {calls : List EnumCall}

/-- What an enumeration holds behind some calls. -/
def Holds (e : Enum) (calls : List EnumCall) : Prop :=
  e.items = (callTexts calls).map (itemOf calls)

theorem Holds.texts (h : e.Holds calls) : e.texts = callTexts calls := by
  rw [Enum.texts, h, List.map_map]
  exact List.map_id _

/-- `add`, whatever the call does to the item then. -/
theorem Holds.add (h : e.Holds calls) (c : EnumCall) :
    (e.add c.item).items = (callTexts (calls ++ [c])).map (itemOf calls) := by
  rw [add_items, callTexts_concat, h.texts]
  by_cases hmem : c.item ∈ callTexts calls
  · rw [if_pos hmem, if_pos hmem]
    exact h
  · rw [if_neg hmem, if_neg hmem, List.map_append, List.map_singleton, itemOf_of_notMem hmem]
    exact congrArg (· ++ _) h

theorem Holds.call (h : e.Holds calls) (c : EnumCall) : (e.call c).Holds (calls ++ [c]) := by
  unfold Holds
  cases c with
  | add item =>
      refine (h.add (.add item)).trans (List.map_congr_left fun text _ => ?_)
      simp [itemOf]
  | addTop item =>
      have hmark (text : List Char) : (itemOf calls text).marked item
          (fun i => { i with top := true }) = itemOf (calls ++ [.addTop item]) text := by
        by_cases htext : text = item
        · simp [EnumItem.marked, itemOf, htext]
        · simp [EnumItem.marked, itemOf, htext]
      have hadd := h.add (.addTop item)
      change (e.add item).items.map (EnumItem.marked item _) = _
      rw [show (e.add item).items = _ from hadd, List.map_map]
      exact List.map_congr_left fun text _ => hmark text
  | addBottom item =>
      have hmark (text : List Char) : (itemOf calls text).marked item
          (fun i => { i with bottom := true }) = itemOf (calls ++ [.addBottom item]) text := by
        by_cases htext : text = item
        · simp [EnumItem.marked, itemOf, htext]
        · simp [EnumItem.marked, itemOf, htext]
      have hadd := h.add (.addBottom item)
      change (e.add item).items.map (EnumItem.marked item _) = _
      rw [show (e.add item).items = _ from hadd, List.map_map]
      exact List.map_congr_left fun text _ => hmark text

theorem call_name (e : Enum) (c : EnumCall) : (e.call c).name = e.name := by
  have hadd (item : List Char) : (e.add item).name = e.name := by
    unfold Enum.add
    split <;> rfl
  cases c with
  | add item => exact hadd item
  | addTop item => exact hadd item
  | addBottom item => exact hadd item

theorem run_concat (name : List Char) (calls : List EnumCall) (c : EnumCall) :
    run name (calls ++ [c]) = (run name calls).call c := by
  rw [run, List.foldl_append]
  rfl

theorem run_holds (name : List Char) (calls : List EnumCall) :
    (run name calls).Holds calls ∧ (run name calls).name = name := by
  induction calls using List.reverseRecOn with
  | nil => exact ⟨rfl, rfl⟩
  | append_singleton calls c ih =>
      rw [run_concat]
      exact ⟨ih.1.call c, (call_name _ c).trans ih.2⟩

end Enum

/-! ## Numbers -/

/-- Where the marks put a text: a text that is ever marked `top` stays at the top, and one that is
marked `bottom` comes before those that are not marked. -/
def rank (calls : List EnumCall) (text : List Char) : Nat :=
  if .addTop text ∈ calls then 0 else if .addBottom text ∈ calls then 1 else 2

/-- The order of the texts: by their ranks, and by their first calls among those of one rank. -/
def Precedes (calls : List EnumCall) (a b : List Char) : Prop :=
  rank calls a < rank calls b ∨ rank calls a = rank calls b ∧
    (callTexts calls).idxOf a < (callTexts calls).idxOf b

theorem Precedes.asymm {calls : List EnumCall} {a b : List Char} (h : Precedes calls a b) :
    ¬Precedes calls b a := by
  unfold Precedes at h ⊢
  omega

/-- The texts of one rank. -/
def ranked (calls : List EnumCall) (r : Nat) : List (List Char) :=
  (callTexts calls).filter fun text => rank calls text = r

theorem sorted_texts (calls : List EnumCall) :
    (EnumItem.sorted ((callTexts calls).map (itemOf calls))).map EnumItem.text =
      ranked calls 0 ++ ranked calls 1 ++ ranked calls 2 := by
  have hfilter (p : EnumItem → Bool) (r : Nat)
      (hp : ∀ text, p (itemOf calls text) = decide (rank calls text = r)) :
      (((callTexts calls).map (itemOf calls)).filter p).map EnumItem.text = ranked calls r := by
    rw [List.filter_map, List.map_map, ranked]
    refine (List.map_id _).trans (List.filter_congr fun text _ => hp text)
  rw [EnumItem.sorted, List.map_append, List.map_append]
  congr 1
  · congr 1
    · refine hfilter _ 0 fun text => ?_
      by_cases htop : EnumCall.addTop text ∈ calls <;>
        by_cases hbottom : EnumCall.addBottom text ∈ calls <;> simp [itemOf, rank, htop, hbottom]
    · refine hfilter _ 1 fun text => ?_
      by_cases htop : EnumCall.addTop text ∈ calls <;>
        by_cases hbottom : EnumCall.addBottom text ∈ calls <;> simp [itemOf, rank, htop, hbottom]
  · refine hfilter _ 2 fun text => ?_
    by_cases htop : EnumCall.addTop text ∈ calls <;>
      by_cases hbottom : EnumCall.addBottom text ∈ calls <;> simp [itemOf, rank, htop, hbottom]

theorem mem_ranked {calls : List EnumCall} {r : Nat} {text : List Char} :
    text ∈ ranked calls r ↔ text ∈ callTexts calls ∧ rank calls text = r := by
  rw [ranked, List.mem_filter, decide_eq_true_eq]

theorem callTexts_pairwise (calls : List EnumCall) : (callTexts calls).Pairwise fun a b =>
    (callTexts calls).idxOf a < (callTexts calls).idxOf b := by
  have hnodup : (callTexts calls).Nodup := nodup_eraseDups _
  rw [List.pairwise_iff_getElem]
  intro i j hi hj hij
  rwa [hnodup.idxOf_getElem, hnodup.idxOf_getElem]

/-- The texts of one rank keep the order of their first calls. -/
theorem ranked_pairwise (calls : List EnumCall) (r : Nat) :
    (ranked calls r).Pairwise (Precedes calls) := by
  refine ((callTexts_pairwise calls).filter _).imp_of_mem fun {a b} ha hb hab => ?_
  exact Or.inr ⟨(mem_ranked.mp ha).2.trans (mem_ranked.mp hb).2.symm, hab⟩

theorem sorted_pairwise (calls : List EnumCall) :
    (ranked calls 0 ++ ranked calls 1 ++ ranked calls 2).Pairwise (Precedes calls) := by
  rw [List.pairwise_append, List.pairwise_append]
  refine ⟨⟨ranked_pairwise calls 0, ranked_pairwise calls 1, fun a ha b hb => Or.inl ?_⟩,
    ranked_pairwise calls 2, fun a ha b hb => Or.inl ?_⟩
  · rw [(mem_ranked.mp ha).2, (mem_ranked.mp hb).2]
    exact Nat.zero_lt_one
  · rw [(mem_ranked.mp hb).2]
    rcases List.mem_append.mp ha with ha | ha
    · rw [(mem_ranked.mp ha).2]
      exact Nat.zero_lt_two
    · rw [(mem_ranked.mp ha).2]
      exact Nat.one_lt_two

namespace Enum

/-- The texts of the printed table. -/
theorem process_texts (name : List Char) (calls : List EnumCall) :
    (run name calls).process.texts = ranked calls 0 ++ ranked calls 1 ++ ranked calls 2 := by
  rw [← sorted_texts, ← (run_holds name calls).1]
  rfl

theorem mem_process_texts {name : List Char} {calls : List EnumCall} {text : List Char} :
    text ∈ (run name calls).process.texts ↔ ∃ c ∈ calls, c.item = text := by
  have hperm := (EnumItem.sorted_perm (run name calls).items).map EnumItem.text
  have htexts : text ∈ (run name calls).process.texts ↔ text ∈ (run name calls).texts :=
    hperm.mem_iff
  rw [htexts, (run_holds name calls).1.texts, mem_callTexts]

theorem value_eq_some_iff (e : Enum) (text : List Char) (v : Nat) :
    e.value text = some v ↔ e.toString v = some text :=
  idxOf?_eq_some_iff e.process.distinct

/-- The enumerators have different names, so a name in C is the value of its text. -/
theorem constant_enumeratorName (e : Enum) (text : List Char) :
    e.constant (e.enumeratorName text) = e.value text := by
  have hinj : Function.Injective e.enumeratorName := fun a b hab =>
    (List.cons.inj (List.append_cancel_left hab)).2
  exact idxOf?_map hinj _ _

theorem value_isSome {name : List Char} {calls : List EnumCall} {text : List Char} :
    (∃ v, (run name calls).value text = some v) ↔ ∃ c ∈ calls, c.item = text := by
  rw [← @mem_process_texts name, List.mem_iff_getElem?]
  exact exists_congr fun v => value_eq_some_iff _ _ _

theorem length_process (name : List Char) (calls : List EnumCall) :
    (run name calls).process.texts.length = (callTexts calls).length := by
  rw [← (run_holds name calls).1.texts]
  exact ((EnumItem.sorted_perm (run name calls).items).map EnumItem.text).length_eq

/-- Texts that come in the order of their ranks are not moved. -/
theorem process_texts_of_sorted {name : List Char} {calls : List EnumCall}
    (h : (callTexts calls).Pairwise fun a b => rank calls a ≤ rank calls b) :
    (run name calls).process.texts = callTexts calls := by
  have hperm : (run name calls).process.texts.Perm (callTexts calls) := by
    rw [← (run_holds name calls).1.texts]
    exact (EnumItem.sorted_perm (run name calls).items).map EnumItem.text
  have hpairwise : (callTexts calls).Pairwise (Precedes calls) := by
    refine (h.and (callTexts_pairwise calls)).imp fun {a b} hab => ?_
    exact (Nat.lt_or_eq_of_le hab.1).imp_right fun heq => ⟨heq, hab.2⟩
  rw [process_texts] at hperm ⊢
  exact hperm.eq_of_pairwise (fun a b _ _ hab hba => absurd hba hab.asymm)
    (sorted_pairwise calls) hpairwise

/-- A text and its terminator fit the printed length. -/
theorem length_lt_maxTextLength {e : Enum} {text : List Char} (h : text ∈ e.process.texts) :
    text.length < e.maxTextLength :=
  Nat.lt_succ_of_le ((le_foldl_max _ 0).2 _ (List.mem_map_of_mem h))

/-- What the printed enumeration and its table of strings are to be: every text that was registered
has a number of its own, which prints as the text; the numbers have no gaps and come in the order
that the marks ask for; the constant of a text has its number, and its text fits. -/
structure Numbers (e : Enum) (calls : List EnumCall) : Prop where
  registered : ∀ text, (∃ v, e.value text = some v) ↔ ∃ c ∈ calls, c.item = text
  printed : ∀ text v, e.value text = some v ↔ e.toString v = some text
  gapless : ∀ v, (∃ text, e.toString v = some text) ↔ v < (callTexts calls).length
  ordered : ∀ a b va vb, e.value a = some va → e.value b = some vb →
    (va < vb ↔ Precedes calls a b)
  constant : ∀ text, e.constant (e.enumeratorName text) = e.value text
  fits : ∀ text v, e.value text = some v → text.length < e.maxTextLength

/-- Whatever is registered in whatever order, the printed enumeration numbers the texts. -/
theorem run_numbers (name : List Char) (calls : List EnumCall) :
    (run name calls).Numbers calls where
  registered _ := value_isSome
  printed := value_eq_some_iff _
  gapless v := by
    rw [← length_process name calls]
    constructor
    · rintro ⟨text, htext⟩
      exact (List.getElem?_eq_some_iff.mp htext).1
    · intro hv
      exact ⟨_, List.getElem?_eq_getElem hv⟩
  ordered a b va vb ha hb := by
    rw [value_eq_some_iff, toString, process_texts] at ha hb
    exact lt_iff_of_pairwise (sorted_pairwise calls) (fun _ _ => Precedes.asymm) ha hb
  constant := constant_enumeratorName _
  fits text v h := length_lt_maxTextLength
    (List.mem_of_getElem? ((value_eq_some_iff _ _ _).mp h))

end Enum

end Amed.Generator
