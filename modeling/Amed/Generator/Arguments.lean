import Amed.Generator.Dictionary
import Amed.Generator.Encodedin
import Amed.Generator.Enum
import Amed.Generator.Sequence

/-!
# Arguments of templates

`node_to_c` writes a value of the database as C: a hash or an array becomes a definition of its own,
and what holds it refers to the definition.

## Implementation notes

A hash is the list of its entries. Before a value is written `process_node` may change it; the
generators replace the method, so it is a hook here, with the state that it changes. Where the
source dies there is no result. The digits and the word characters of the patterns are those of
ASCII.
-/

namespace Amed.Generator

open Brackets Delimited
open Enum (uc)

/-- A value of the database. -/
inductive Ast
  | undefined
  | scalar (text : List Char)
  | array (items : List Ast)
  | hash (fields : List (List Char × Ast))

namespace Ast

abbrev Fields := List (List Char × Ast)

/-- `exists $node->{$key}` -/
def has (fields : Fields) (key : List Char) : Bool := (fields.lookup key).isSome

/-- `$node->{$key}` -/
def get (fields : Fields) (key : List Char) : Ast := (fields.lookup key).getD .undefined

/-- `delete $node->{$key}` -/
def delete (fields : Fields) (key : List Char) : Fields := fields.filter (·.1 != key)

/-- `$node->{$key} = $value` -/
def set (fields : Fields) (key : List Char) (value : Ast) : Fields :=
  (key, value) :: delete fields key

def isDefined : Ast → Bool
  | .undefined => false
  | _ => true

/-- The entries of a hash. -/
def fields : Ast → Fields
  | .hash fields => fields
  | _ => []

/-- A scalar as a text. -/
def text : Ast → List Char
  | .scalar text => text
  | _ => []

end Ast

def lc (text : List Char) : List Char := text.map Char.toLower

/-- `(\w+)$` -/
def lastWord (text : List Char) : List Char := (text.reverse.takeWhile isWord).reverse

/-- `s/\.?(\w+)$//` -/
def withoutLastWord (text : List Char) : List Char :=
  if lastWord text = [] then text
  else
    match text.reverse.dropWhile isWord with
    | '.' :: front => front.reverse
    | front => front.reverse

/-- `$`: the end of a text, or the line break at its end. -/
def atEnd (text : List Char) : Bool := text.isEmpty || text = ['\n']

/-- `^\d+(\.\d+)?$` -/
def isUnsigned (text : List Char) : Bool :=
  let rest := text.dropWhile Char.isDigit
  !(text.takeWhile Char.isDigit).isEmpty &&
    (atEnd rest ||
      rest.head? = some '.' && !(rest.tail.takeWhile Char.isDigit).isEmpty &&
        atEnd (rest.tail.dropWhile Char.isDigit))

/-- `^[\-\+]?(\d+)(\.\d+)?$` -/
def isNumber : List Char → Bool
  | '-' :: text => isUnsigned text
  | '+' :: text => isUnsigned text
  | text => isUnsigned text

/-- The type that a qualified name names. -/
def typeOfName (qlf : List Char) : List Char :=
  if lastWord qlf = [] then "anonymous".toList else lastWord qlf

/-- The pattern `word` somewhere in a text. -/
def contains (word text : List Char) : Bool := text.tails.any word.isPrefixOf

/-- `quote_value` -/
def quoteValue (qlf key value : List Char) : List Char :=
  if isNumber value then value
  else if contains "items".toList key || contains "table".toList key then '&' :: value
  else
    let holder := lastWord (withoutLastWord qlf)
    let key := if key = "value".toList && !holder.isEmpty then uc holder else key
    "MK_".toList ++ uc key ++ '(' :: (value ++ [')'])

/-- The braces around the entries of an initializer. -/
def braces (entries : List (List Char)) : List Char := '\x7b' :: (joined entries ++ ['\x7d'])

/-- An entry of a structure. -/
def entryText (key c : List Char) : List Char :=
  '.' :: (key ++ '=' :: (if c.head? = some '&' then "(void*)".toList ++ c else c))

/-- The mark behind the items of an array. -/
def terminal : List Char := "TERMINAL".toList

/-- The definition of an object, and the reference to it. -/
def register (type data : List Char) (d : Dictionary) : List Char × Dictionary :=
  let added := d.add (lc type) ("amed_db_".toList ++ lc type) data
  ('&' :: ((added.2.items[added.1]?).map DictionaryItem.link).getD [], added.2)

/-- The order of `sort`. -/
def sortsBefore : List Char → List Char → Bool
  | [], _ => true
  | _ :: _, [] => false
  | c :: cs, d :: ds => c.toNat < d.toNat || c.toNat = d.toNat && sortsBefore cs ds

/-- The entries of a hash that are written: `has_encodedin` is set beside an `encodedin`, and what
has no value is left out. -/
def shownFields (fields : Ast.Fields) : Ast.Fields :=
  let fields :=
    if Ast.has fields "encodedin".toList then
      Ast.set fields "has_encodedin".toList (.scalar ['1'])
    else fields
  (fields.mergeSort fun f g => sortsBefore f.1 g.1).filter fun f => f.2.isDefined

/-- The type of a hash. -/
def typeOfHash (qlf : List Char) (fields : Ast.Fields) : List Char :=
  if Ast.has fields "type".toList then (Ast.get fields "type".toList).text else typeOfName qlf

/-- A function with a state, on every item of a list. -/
def mapState {α β σ : Type} (f : α → σ → Option (β × σ)) : List α → σ → Option (List β × σ)
  | [], s => some ([], s)
  | a :: as, s =>
      (f a s).bind fun r => (mapState f as r.2).map fun rs => (r.1 :: rs.1, rs.2)

/-- The values that are written below a value. -/
def writtenBelow : Ast → List Ast
  | .array items => items
  | .hash fields => (shownFields fields).map Prod.snd
  | _ => []

mutual

/-- The depth of a value. -/
def Ast.depth : Ast → Nat
  | .undefined => 0
  | .scalar _ => 0
  | .array items => Ast.depthOfItems items + 1
  | .hash fields => Ast.depthOfFields fields + 1

def Ast.depthOfItems : List Ast → Nat
  | [] => 0
  | item :: items => max (Ast.depth item) (Ast.depthOfItems items)

def Ast.depthOfFields : List (List Char × Ast) → Nat
  | [] => 0
  | field :: fields => max (Ast.depthOfField field) (Ast.depthOfFields fields)

def Ast.depthOfField : List Char × Ast → Nat
  | ⟨_, node⟩ => Ast.depth node

end

theorem Ast.depth_le_of_item {item : Ast} {items : List Ast} (h : item ∈ items) :
    item.depth ≤ depthOfItems items := by
  induction items with
  | nil => cases h
  | cons head items ih =>
      rw [depthOfItems]
      obtain rfl | h := List.mem_cons.mp h
      · exact Nat.le_max_left _ _
      · exact Nat.le_trans (ih h) (Nat.le_max_right _ _)

theorem Ast.depth_le_of_field {field : List Char × Ast} {fields : Ast.Fields} (h : field ∈ fields) :
    field.2.depth ≤ depthOfFields fields := by
  induction fields with
  | nil => cases h
  | cons head fields ih =>
      rw [depthOfFields]
      obtain rfl | h := List.mem_cons.mp h
      · rw [depthOfField]
        exact Nat.le_max_left _ _
      · exact Nat.le_trans (ih h) (Nat.le_max_right _ _)

theorem Ast.mem_set {field : List Char × Ast} {fields : Ast.Fields} {key : List Char} {value : Ast}
    (h : field ∈ set fields key value) : field = (key, value) ∨ field ∈ fields :=
  (List.mem_cons.mp h).imp_right fun h => (List.mem_filter.mp h).1

theorem lookup_filter_ne {key key' : List Char} (hne : key' ≠ key) (fields : Ast.Fields) :
    (fields.filter (·.1 != key)).lookup key' = fields.lookup key' := by
  induction fields with
  | nil => rfl
  | cons field fields ih =>
      by_cases hkey : field.1 = key
      · have hbeq : (key' == field.1) = false := beq_eq_false_iff_ne.mpr (hkey ▸ hne)
        rw [List.filter_cons_of_neg (by simp [hkey]), ih, List.lookup_cons, hbeq]
      · rw [List.filter_cons_of_pos (by simp [hkey]), List.lookup_cons, List.lookup_cons, ih]

theorem Ast.get_delete {key key' : List Char} (hne : key' ≠ key) (fields : Ast.Fields) :
    get (delete fields key) key' = get fields key' := by
  rw [get, delete, lookup_filter_ne hne, get]

theorem Ast.lookup_set {key key' : List Char} (hne : key' ≠ key) (fields : Ast.Fields)
    (value : Ast) : (set fields key value).lookup key' = fields.lookup key' := by
  have hbeq : (key' == key) = false := beq_eq_false_iff_ne.mpr hne
  rw [set, List.lookup_cons, hbeq]
  exact lookup_filter_ne hne fields

theorem Ast.get_set {key key' : List Char} (hne : key' ≠ key) (fields : Ast.Fields) (value : Ast) :
    get (set fields key value) key' = get fields key' := by
  rw [get, lookup_set hne, get]

/-- The fields are written as they are, beside `has_encodedin`. -/
theorem mem_shownFields {field : List Char × Ast} {fields : Ast.Fields}
    (h : field ∈ shownFields fields) :
    field = ("has_encodedin".toList, .scalar ['1']) ∨ field ∈ fields := by
  obtain ⟨h, -⟩ := List.mem_filter.mp h
  rw [List.mem_mergeSort] at h
  split at h
  · exact Ast.mem_set h
  · exact .inr h

theorem depth_of_shown {field : List Char × Ast} {fields : Ast.Fields}
    (h : field ∈ shownFields fields) : field.2.depth = 0 ∨ field ∈ fields := by
  obtain rfl | h := mem_shownFields h
  · exact .inl rfl
  · exact .inr h

/-- `process_node` of a generator. It leaves a hash where it finds one, and what is written below
the value it leaves has a lower rank. -/
structure Hook (σ : Type) where
  process : Ast → σ → Option (Ast × σ)
  isHash : ∀ {fields : Ast.Fields} {node' : Ast} {s s' : σ},
    process (.hash fields) s = some (node', s') → ∃ fields', node' = .hash fields'
  rank : Ast → Nat
  rank_lt : ∀ {node node' : Ast} {s s' : σ}, process node s = some (node', s') →
    ∀ child ∈ writtenBelow node', rank child < rank node

section

variable {σ : Type} (hook : Hook σ)

/-- `node_to_c`, below the depth `n`. -/
def nodeToCBy : Nat → List Char → Ast → σ × Dictionary → Option (List Char × (σ × Dictionary))
  | 0, _, _, _ => none
  | n + 1, qlf, node, s =>
      (hook.process node s.1).bind fun p =>
        match p.1 with
        | .undefined => some (quoteValue qlf (typeOfName qlf) [], (p.2, s.2))
        | .scalar text => some (quoteValue qlf (typeOfName qlf) text, (p.2, s.2))
        | .array items =>
            (mapState (nodeToCBy n qlf) items (p.2, s.2)).map fun r =>
              let w := register (typeOfName qlf) (braces (r.1 ++ [terminal])) r.2.2
              (w.1, (r.2.1, w.2))
        | .hash fields =>
            let shown := shownFields fields
            (mapState (fun f => nodeToCBy n (qlf ++ '.' :: f.1) f.2) shown (p.2, s.2)).map fun r =>
              let entries := List.zipWith entryText (shown.map Prod.fst) r.1
              let w := register (typeOfHash qlf fields) (braces entries) r.2.2
              (w.1, (r.2.1, w.2))

/-- `node_to_c`. -/
def nodeToC (qlf : List Char) (node : Ast) (s : σ × Dictionary) :
    Option (List Char × (σ × Dictionary)) :=
  nodeToCBy hook (hook.rank node + 1) qlf node s

end

/-! ## Two passes -/

/-- What is written of a value: the texts of its scalars, and the types of its objects. -/
inductive CNode
  | value (text : List Char)
  | array (type : List Char) (items : List CNode)
  | hash (type : List Char) (keys : List (List Char)) (values : List CNode)

section

variable {σ : Type} (hook : Hook σ)

/-- The values below a value, changed and quoted, without their definitions. -/
def convertBy : Nat → List Char → Ast → σ → Option (CNode × σ)
  | 0, _, _, _ => none
  | n + 1, qlf, node, s =>
      (hook.process node s).bind fun p =>
        match p.1 with
        | .undefined => some (.value (quoteValue qlf (typeOfName qlf) []), p.2)
        | .scalar text => some (.value (quoteValue qlf (typeOfName qlf) text), p.2)
        | .array items =>
            (mapState (convertBy n qlf) items p.2).map fun r => (.array (typeOfName qlf) r.1, r.2)
        | .hash fields =>
            let shown := shownFields fields
            (mapState (fun f => convertBy n (qlf ++ '.' :: f.1) f.2) shown p.2).map fun r =>
              (.hash (typeOfHash qlf fields) (shown.map Prod.fst) r.1, r.2)

def convert (qlf : List Char) (node : Ast) (s : σ) : Option (CNode × σ) :=
  convertBy hook (hook.rank node + 1) qlf node s

end

namespace CNode

mutual

/-- The definitions of a value, and its text. -/
def define : CNode → Dictionary → List Char × Dictionary
  | .value text, d => (text, d)
  | .array type items, d =>
      let r := defineAll items d
      register type (braces (r.1 ++ [terminal])) r.2
  | .hash type keys values, d =>
      let r := defineAll values d
      register type (braces (List.zipWith entryText keys r.1)) r.2

def defineAll : List CNode → Dictionary → List (List Char) × Dictionary
  | [], d => ([], d)
  | node :: nodes, d =>
      let r := define node d
      let rs := defineAll nodes r.2
      (r.1 :: rs.1, rs.2)

end

end CNode

section

variable {σ : Type} {hook : Hook σ}

theorem mapState_define {α : Type} {f : α → σ × Dictionary → Option (List Char × (σ × Dictionary))}
    {g : α → σ → Option (CNode × σ)}
    (h : ∀ a s d, f a (s, d) = (g a s).map fun r => ((r.1.define d).1, (r.2, (r.1.define d).2)))
    (as : List α) (s : σ) (d : Dictionary) :
    mapState f as (s, d) = (mapState g as s).map fun r =>
      ((CNode.defineAll r.1 d).1, (r.2, (CNode.defineAll r.1 d).2)) := by
  induction as generalizing s d with
  | nil => rfl
  | cons a as ih =>
      rw [mapState, mapState, h]
      cases g a s with
      | none => rfl
      | some r =>
          rw [Option.map_some, Option.bind_some, Option.bind_some, ih]
          cases mapState g as r.2 with
          | none => rfl
          | some rs => rfl

/-- The definitions do not interfere with the changes of `process_node`. -/
theorem nodeToCBy_eq (n : Nat) (qlf : List Char) (node : Ast) (s : σ) (d : Dictionary) :
    nodeToCBy hook n qlf node (s, d) = (convertBy hook n qlf node s).map fun r =>
      ((r.1.define d).1, (r.2, (r.1.define d).2)) := by
  induction n generalizing qlf node s d with
  | zero => rfl
  | succ n ih =>
      rw [nodeToCBy, convertBy]
      cases hook.process node s with
      | none => rfl
      | some p =>
          obtain ⟨node', s'⟩ := p
          rw [Option.bind_some, Option.bind_some]
          cases node' with
          | undefined => rfl
          | scalar text => rfl
          | array items =>
              dsimp only
              rw [mapState_define (g := convertBy hook n qlf) fun a s d => ih qlf a s d]
              cases mapState (convertBy hook n qlf) items s' with
              | none => rfl
              | some r => rfl
          | hash fields =>
              dsimp only
              rw [mapState_define (g := fun f => convertBy hook n (qlf ++ '.' :: f.1) f.2)
                fun f s d => ih _ f.2 s d]
              cases mapState (fun f => convertBy hook n (qlf ++ '.' :: f.1) f.2)
                  (shownFields fields) s' with
              | none => rfl
              | some r => rfl

/-- `node_to_c` in two passes. -/
theorem nodeToC_eq (hook : Hook σ) (qlf : List Char) (node : Ast) (s : σ) (d : Dictionary) :
    nodeToC hook qlf node (s, d) = (convert hook qlf node s).map fun r =>
      ((r.1.define d).1, (r.2, (r.1.define d).2)) :=
  nodeToCBy_eq (hook.rank node + 1) qlf node s d

end

section

variable {σ : Type}

/-- A function that always gives a value. -/
theorem exists_mapState {α β : Type} {f : α → σ → Option (β × σ)} {as : List α}
    (h : ∀ a ∈ as, ∀ s, ∃ r, f a s = some r) (s : σ) : ∃ rs, mapState f as s = some rs := by
  induction as generalizing s with
  | nil => exact ⟨_, rfl⟩
  | cons a as ih =>
      obtain ⟨hhead, htail⟩ := List.forall_mem_cons.mp h
      obtain ⟨r, hr⟩ := hhead s
      obtain ⟨rs, hrs⟩ := ih htail r.2
      exact ⟨_, by rw [mapState, hr, Option.bind_some, hrs, Option.map_some]⟩

/-- Values that `process_node` accepts, with what it leaves below them, are written. -/
theorem exists_convertBy {hook : Hook σ} {accepted : Ast → Prop}
    (h : ∀ node s, accepted node → ∃ p, hook.process node s = some p ∧
      ∀ child ∈ writtenBelow p.1, accepted child)
    {n : Nat} {node : Ast} (hnode : accepted node) (hn : hook.rank node < n) (qlf : List Char)
    (s : σ) : ∃ r, convertBy hook n qlf node s = some r := by
  induction n generalizing node qlf s with
  | zero => cases hn
  | succ n ih =>
      obtain ⟨⟨node', s'⟩, hprocess, haccepted⟩ := h node s hnode
      have hbelow : ∀ child ∈ writtenBelow node', ∀ qlf s,
          ∃ r, convertBy hook n qlf child s = some r := fun child hchild =>
        ih (haccepted child hchild)
          (Nat.lt_of_lt_of_le (hook.rank_lt hprocess child hchild) (Nat.le_of_lt_succ hn))
      rw [convertBy, hprocess, Option.bind_some]
      cases node' with
      | undefined => exact ⟨_, rfl⟩
      | scalar text => exact ⟨_, rfl⟩
      | array items =>
          obtain ⟨rs, hrs⟩ := exists_mapState (fun item hitem => hbelow item hitem qlf) s'
          exact ⟨_, congrArg (Option.map _) hrs⟩
      | hash fields =>
          obtain ⟨rs, hrs⟩ := exists_mapState
            (f := fun (f : List Char × Ast) => convertBy hook n (qlf ++ '.' :: f.1) f.2)
            (fun field hfield => hbelow field.2 (List.mem_map_of_mem hfield) _) s'
          exact ⟨_, congrArg (Option.map _) hrs⟩

end

/-! ## What the definitions show -/

/-- The address of a definition. -/
def DictionaryItem.address (item : DictionaryItem) : List Char := '&' :: item.link

namespace CNode

variable {items items' : List DictionaryItem}

mutual

/-- Behind the definitions the text stands for the value. -/
inductive Shows (items : List DictionaryItem) : CNode → List Char → Prop
  | value (text : List Char) : Shows items (.value text) text
  | object {node : CNode} {item : DictionaryItem} (hdata : Renders items node item.data)
      (hitem : item ∈ items) : Shows items node item.address

inductive ShowsAll (items : List DictionaryItem) : List CNode → List (List Char) → Prop
  | nil : ShowsAll items [] []
  | cons {node : CNode} {nodes : List CNode} {text : List Char} {texts : List (List Char)}
      (hnode : Shows items node text) (hnodes : ShowsAll items nodes texts) :
      ShowsAll items (node :: nodes) (text :: texts)

/-- The initializer of an object. -/
inductive Renders (items : List DictionaryItem) : CNode → List Char → Prop
  | array {nodes : List CNode} {texts : List (List Char)} (type : List Char)
      (hnodes : ShowsAll items nodes texts) :
      Renders items (.array type nodes) (braces (texts ++ [terminal]))
  | hash {values : List CNode} {texts : List (List Char)} (type : List Char)
      (keys : List (List Char)) (hvalues : ShowsAll items values texts) :
      Renders items (.hash type keys values) (braces (List.zipWith entryText keys texts))

end

mutual

theorem Shows.mono (h : items ⊆ items') {node : CNode} {text : List Char}
    (hshows : Shows items node text) : Shows items' node text :=
  match hshows with
  | .value text => .value text
  | .object hdata hitem => .object (hdata.mono h) (h hitem)

theorem ShowsAll.mono (h : items ⊆ items') {nodes : List CNode} {texts : List (List Char)}
    (hshows : ShowsAll items nodes texts) : ShowsAll items' nodes texts :=
  match hshows with
  | .nil => .nil
  | .cons hnode hnodes => .cons (hnode.mono h) (hnodes.mono h)

theorem Renders.mono (h : items ⊆ items') {node : CNode} {data : List Char}
    (hrenders : Renders items node data) : Renders items' node data :=
  match hrenders with
  | .array type hnodes => .array type (hnodes.mono h)
  | .hash type keys hvalues => .hash type keys (hvalues.mono h)

end

/-- Every definition refers to definitions in front of it only. -/
def InOrder (items : List DictionaryItem) : Prop :=
  ∀ (i : Nat) (item : DictionaryItem), items[i]? = some item →
    ∃ node, Renders (items.take i) node item.data

theorem InOrder.concat (h : InOrder items) {item : DictionaryItem} {node : CNode}
    (hitem : Renders items node item.data) : InOrder (items ++ [item]) := by
  intro i item' hitem'
  obtain hi | rfl | hi := Nat.lt_trichotomy i items.length
  · rw [List.getElem?_append_left hi] at hitem'
    rw [List.take_append_of_le_length (Nat.le_of_lt hi)]
    exact h i item' hitem'
  · rw [List.getElem?_concat_length, Option.some_inj] at hitem'
    subst hitem'
    rw [List.take_left]
    exact ⟨node, hitem⟩
  · rw [List.getElem?_eq_none (by simp; omega)] at hitem'
    cases hitem'

/-- What the dictionary of the definitions keeps. -/
structure Defines (d : Dictionary) : Prop where
  holds : d.Holds
  inOrder : InOrder d.items

variable {d : Dictionary}

theorem new_defines : Defines (.new false) where
  holds := Dictionary.new_holds
  inOrder i item h := by cases h

/-- The dictionary behind a definition. -/
structure Registers (d : Dictionary) (node : CNode) (r : List Char × Dictionary) : Prop where
  defines : Defines r.2
  grows : d.items <+: r.2.items
  shows : Shows r.2.items node r.1

theorem register_spec (h : Defines d) (type : List Char) {data : List Char} {node : CNode}
    (hdata : Renders d.items node data) : Registers d node (register type data d) := by
  have hadd := h.holds.add (lc type) ("amed_db_".toList ++ lc type) data
  obtain ⟨item, hitem, hitemData, -⟩ := hadd.defined
  have hmem := List.mem_of_getElem? hitem
  have hgrows : d.items <+: (d.add (lc type) ("amed_db_".toList ++ lc type) data).2.items ∧
      Defines (d.add (lc type) ("amed_db_".toList ++ lc type) data).2 := by
    rw [Dictionary.add, h.holds.isUniq, if_neg Bool.false_ne_true]
    cases hseen : d.seen data with
    | some entry => exact ⟨List.prefix_rfl, h⟩
    | none =>
        exact ⟨List.prefix_append _ _, h.holds.push _ _ hseen, h.inOrder.concat hdata⟩
  refine ⟨hgrows.2, hgrows.1, ?_⟩
  have haddress : (register type data d).1 = item.address := by
    rw [register, hitem]
    rfl
  rw [haddress]
  refine .object ?_ hmem
  rw [hitemData]
  exact hdata.mono hgrows.1.subset

mutual

theorem define_spec {d : Dictionary} (h : Defines d) (node : CNode) :
    Registers d node (node.define d) :=
  match node with
  | .value text => ⟨h, List.prefix_rfl, .value text⟩
  | .array type nodes => by
      obtain ⟨hdefines, hgrows, hshows⟩ := defineAll_spec h nodes
      obtain ⟨hdefines', hgrows', hshows'⟩ := register_spec hdefines type (.array type hshows)
      exact ⟨hdefines', hgrows.trans hgrows', hshows'⟩
  | .hash type keys values => by
      obtain ⟨hdefines, hgrows, hshows⟩ := defineAll_spec h values
      obtain ⟨hdefines', hgrows', hshows'⟩ := register_spec hdefines type (.hash type keys hshows)
      exact ⟨hdefines', hgrows.trans hgrows', hshows'⟩

theorem defineAll_spec {d : Dictionary} (h : Defines d) (nodes : List CNode) :
    Defines (defineAll nodes d).2 ∧ d.items <+: (defineAll nodes d).2.items ∧
      ShowsAll (defineAll nodes d).2.items nodes (defineAll nodes d).1 :=
  match nodes with
  | [] => ⟨h, List.prefix_rfl, .nil⟩
  | node :: nodes => by
      obtain ⟨hdefines, hgrows, hshows⟩ := define_spec h node
      obtain ⟨hdefines', hgrows', hshows'⟩ := defineAll_spec hdefines nodes
      exact ⟨hdefines', hgrows.trans hgrows', .cons (hshows.mono hgrows'.subset) hshows'⟩

end

/-! ## What the text tells -/

/-- No character that separates or encloses entries. -/
def isPlain (text : List Char) : Bool := text.all fun c => c ≠ ',' && brace c = .plain

theorem isElement_of_plain {text : List Char} (h : isPlain text = true) : IsElement text := by
  have hchars : ∀ c ∈ text, c ≠ ',' ∧ brace c = .plain := by
    simpa [isPlain] using h
  exact isElement_of_forall fun c hc => (hchars c hc).symm

theorem isPlain_append {text text' : List Char} :
    isPlain (text ++ text') = (isPlain text && isPlain text') := List.all_append

theorem isPlain_entryText {key text : List Char} (hkey : isPlain key = true)
    (htext : isPlain text = true) : isPlain (entryText key text) = true := by
  have hshown :
      isPlain (if text.head? = some '&' then "(void*)".toList ++ text else text) = true := by
    split
    · rw [isPlain_append, htext]
      rfl
    · exact htext
  have hall : isPlain (['.'] ++ (key ++ (['='] ++
      (if text.head? = some '&' then "(void*)".toList ++ text else text)))) = true := by
    rw [isPlain_append, isPlain_append, isPlain_append, hkey, hshown]
    rfl
  exact hall

theorem entryText_inj {key key' text text' : List Char} (hkey : '=' ∉ key) (hkey' : '=' ∉ key')
    (htext : text.head? ≠ some '(') (htext' : text'.head? ≠ some '(')
    (h : entryText key text = entryText key' text') : key = key' ∧ text = text' := by
  have hcut {key : List Char} (hkey : '=' ∉ key) (rest : List Char) :
      (key ++ '=' :: rest).takeWhile (· != '=') = key ∧
        (key ++ '=' :: rest).dropWhile (· != '=') = '=' :: rest :=
    takeWhile_append_of_head (fun c hc => bne_iff_ne.mpr fun heq => hkey (heq ▸ hc))
      fun c hc => by cases hc; rfl
  have htail := (List.cons.inj h).2
  have hkeys := congrArg (List.takeWhile (· != '=')) htail
  have hrest := congrArg (List.dropWhile (· != '=')) htail
  rw [(hcut hkey _).1, (hcut hkey' _).1] at hkeys
  rw [(hcut hkey _).2, (hcut hkey' _).2] at hrest
  refine ⟨hkeys, ?_⟩
  have hshown := (List.cons.inj hrest).2
  -- only the address of an object is cast
  split at hshown <;> split at hshown
  · exact List.append_cancel_left hshown
  · exact absurd (congrArg List.head? hshown).symm htext'
  · exact absurd (congrArg List.head? hshown) htext
  · exact hshown

theorem joined_eq_nil {array : List (List Char)} (h : ∀ e ∈ array, e ≠ [])
    (hjoined : joined array = []) : array = [] := by
  cases array with
  | nil => rfl
  | cons e array =>
      have he : e = [] := by
        cases array with
        | nil => rwa [joined, List.intercalate_singleton] at hjoined
        | cons e' array =>
            rw [joined, List.intercalate_cons_cons] at hjoined
            exact (List.append_eq_nil_iff.mp (List.append_eq_nil_iff.mp hjoined).1).1
      exact absurd he (h e (.head _))

/-- The braces tell the entries. -/
theorem braces_inj {a b : List (List Char)} (ha : ∀ e ∈ a, IsElement e ∧ e ≠ [])
    (hb : ∀ e ∈ b, IsElement e ∧ e ≠ []) (h : braces a = braces b) : a = b := by
  have hjoined : joined a = joined b := by
    rw [braces, braces, List.cons.injEq, List.append_cancel_right_eq] at h
    exact h.2
  by_cases hnil : a = []
  · subst hnil
    exact (joined_eq_nil (fun e he => (hb e he).2) hjoined.symm).symm
  · by_cases hnil' : b = []
    · subst hnil'
      exact joined_eq_nil (fun e he => (ha e he).2) hjoined
    · exact joined_inj hnil hnil' (fun e he => (ha e he).1) (fun e he => (hb e he).1) hjoined

mutual

/-- A value without the types of its objects. -/
def erase : CNode → CNode
  | .value text => .value text
  | .array _ nodes => .array [] (eraseAll nodes)
  | .hash _ keys values => .hash [] keys (eraseAll values)

def eraseAll : List CNode → List CNode
  | [] => []
  | node :: nodes => erase node :: eraseAll nodes

end

/-- The texts of a value tell it from every other: no text separates entries or is the address of a
definition, and no key contains an equals sign. -/
inductive Plain (items : List DictionaryItem) : CNode → Prop
  | value {text : List Char} (hplain : isPlain text = true) (hne : text ≠ [])
      (hopen : text.head? ≠ some '(')
      (haddress : ∀ item ∈ items, text ≠ item.address) : Plain items (.value text)
  | array {type : List Char} {nodes : List CNode} (hnodes : ∀ node ∈ nodes, Plain items node) :
      Plain items (.array type nodes)
  | hash {type : List Char} {keys : List (List Char)} {values : List CNode}
      (hlength : keys.length = values.length) (hkeys : ∀ key ∈ keys, isPlain key = true ∧ '=' ∉ key)
      (hvalues : ∀ value ∈ values, Plain items value) : Plain items (.hash type keys values)

/-- A name of a type: definitions with such names have links of their own. -/
def IsTypeName (name : List Char) : Prop :=
  isPlain name = true ∧ Dictionary.endsInZeros name = true

theorem isPlain_decimal (n : Nat) : isPlain (Printing.decimal n) = true := by
  rw [isPlain, List.all_eq_true]
  exact Printing.forall_toDigits (by decide)
    (P := fun c => (c ≠ ',' && brace c = .plain : Bool) = true) (by decide) n

/-- The names of the definitions. -/
def NamesFit (items : List DictionaryItem) : Prop := ∀ item ∈ items, IsTypeName item.name

theorem isPlain_address (h : Defines d) (hnames : NamesFit d.items) {item : DictionaryItem}
    (hitem : item ∈ d.items) : isPlain item.address = true := by
  obtain ⟨i, hi⟩ := List.getElem?_of_mem hitem
  have hlink : isPlain (['&'] ++ (item.name ++ Printing.decimal (Dictionary.count (d.items.take i)
      item.name))) = true := by
    rw [isPlain_append, isPlain_append, (hnames item hitem).1, isPlain_decimal]
    rfl
  rw [DictionaryItem.address, h.holds.link i item hi]
  exact hlink

/-- The text of a plain value is plain. -/
theorem Shows.plain (h : Defines d) (hnames : NamesFit d.items) {node : CNode} {text : List Char}
    (hshows : Shows d.items node text) (hplain : Plain d.items node) :
    isPlain text = true ∧ text ≠ [] ∧ text.head? ≠ some '(' := by
  cases hshows with
  | value text =>
      cases hplain with
      | value hplain hne hopen _ => exact ⟨hplain, hne, hopen⟩
  | object hdata hitem =>
      exact ⟨isPlain_address h hnames hitem, List.cons_ne_nil _ _, by simp [DictionaryItem.address]⟩

theorem ShowsAll.plain (h : Defines d) (hnames : NamesFit d.items) {nodes : List CNode}
    {texts : List (List Char)} (hshows : ShowsAll d.items nodes texts)
    (hplain : ∀ node ∈ nodes, Plain d.items node) :
    ∀ text ∈ texts, isPlain text = true ∧ text ≠ [] ∧ text.head? ≠ some '(' := by
  induction nodes generalizing texts with
  | nil =>
      cases hshows
      exact fun text htext => absurd htext List.not_mem_nil
  | cons node nodes ih =>
      cases hshows with
      | cons hnode hnodes =>
          obtain ⟨hhead, htail⟩ := List.forall_mem_cons.mp hplain
          exact List.forall_mem_cons.mpr ⟨hnode.plain h hnames hhead, ih hnodes htail⟩

theorem ShowsAll.length_eq {nodes : List CNode} {texts : List (List Char)}
    (hshows : ShowsAll items nodes texts) : nodes.length = texts.length := by
  induction nodes generalizing texts with
  | nil =>
      cases hshows
      rfl
  | cons node nodes ih =>
      cases hshows with
      | cons _ hnodes => rw [List.length_cons, List.length_cons, ih hnodes]

/-- The entries of a structure. -/
theorem zipWith_entryText_inj {keys keys' texts texts' : List (List Char)}
    (hlength : keys.length = texts.length) (hlength' : keys'.length = texts'.length)
    (hkeys : ∀ key ∈ keys, '=' ∉ key) (hkeys' : ∀ key ∈ keys', '=' ∉ key)
    (htexts : ∀ text ∈ texts, text.head? ≠ some '(')
    (htexts' : ∀ text ∈ texts', text.head? ≠ some '(')
    (h : List.zipWith entryText keys texts = List.zipWith entryText keys' texts') :
    keys = keys' ∧ texts = texts' := by
  induction keys generalizing keys' texts texts' with
  | nil =>
      obtain rfl := List.length_eq_zero_iff.mp hlength.symm
      have hnil : (List.zipWith entryText keys' texts').length = 0 := by rw [← h]; rfl
      rw [List.length_zipWith, ← hlength', Nat.min_self] at hnil
      obtain rfl := List.length_eq_zero_iff.mp hnil
      exact ⟨rfl, (List.length_eq_zero_iff.mp hlength'.symm).symm⟩
  | cons key keys ih =>
      cases texts with
      | nil => cases hlength
      | cons text texts =>
          cases keys' with
          | nil => cases h
          | cons key' keys' =>
              cases texts' with
              | nil => cases hlength'
              | cons text' texts' =>
                  rw [List.zipWith_cons_cons, List.zipWith_cons_cons, List.cons.injEq] at h
                  rw [List.forall_mem_cons] at hkeys hkeys' htexts htexts'
                  obtain ⟨rfl, rfl⟩ := entryText_inj hkeys.1 hkeys'.1 htexts.1 htexts'.1 h.1
                  obtain ⟨rfl, rfl⟩ := ih (Nat.succ.inj hlength) (Nat.succ.inj hlength') hkeys.2
                    hkeys'.2 htexts.2 htexts'.2 h.2
                  exact ⟨rfl, rfl⟩

theorem entries_spec {keys texts : List (List Char)} (hkeys : ∀ key ∈ keys, isPlain key = true)
    (htexts : ∀ text ∈ texts, isPlain text = true) :
    ∀ e ∈ List.zipWith entryText keys texts, (IsElement e ∧ e ≠ []) ∧ e ≠ terminal := by
  intro e he
  obtain ⟨i, hi⟩ := List.getElem?_of_mem he
  obtain ⟨key, text, hkey, htext, rfl⟩ := List.getElem?_zipWith_eq_some.mp hi
  refine ⟨⟨isElement_of_plain (isPlain_entryText (hkeys key (List.mem_of_getElem? hkey))
    (htexts text (List.mem_of_getElem? htext))), List.cons_ne_nil _ _⟩, fun h => ?_⟩
  have hhead : some '.' = some 'T' := congrArg List.head? h
  exact absurd hhead (by decide)

theorem items_spec {texts : List (List Char)}
    (htexts : ∀ text ∈ texts, isPlain text = true ∧ text ≠ []) :
    ∀ e ∈ texts ++ [terminal], IsElement e ∧ e ≠ [] := by
  intro e he
  obtain he | he := List.mem_append.mp he
  · exact ⟨isElement_of_plain (htexts e he).1, (htexts e he).2⟩
  · rw [List.mem_singleton.mp he]
    exact ⟨isElement_of_plain (by decide), by decide⟩

theorem Shows.cases {node : CNode} {text : List Char} (h : Shows items node text) :
    node = .value text ∨ ∃ item ∈ items, text = item.address ∧ Renders items node item.data := by
  cases h with
  | value text => exact .inl rfl
  | object hdata hitem => exact .inr ⟨_, hitem, rfl, hdata⟩

theorem Renders.cases {node : CNode} {data : List Char} (h : Renders items node data) :
    (∃ type nodes texts, node = .array type nodes ∧ ShowsAll items nodes texts ∧
        data = braces (texts ++ [terminal])) ∨
      ∃ type keys values texts, node = .hash type keys values ∧ ShowsAll items values texts ∧
        data = braces (List.zipWith entryText keys texts) := by
  cases h with
  | array type hnodes => exact .inl ⟨type, _, _, rfl, hnodes, rfl⟩
  | hash type keys hvalues => exact .inr ⟨type, keys, _, _, rfl, hvalues, rfl⟩

/-- An array is no structure. -/
theorem braces_array_ne_hash {keys texts texts' : List (List Char)}
    (hkeys : ∀ key ∈ keys, isPlain key = true) (htexts : ∀ text ∈ texts, isPlain text = true)
    (htexts' : ∀ text ∈ texts', isPlain text = true ∧ text ≠ []) :
    braces (texts' ++ [terminal]) ≠ braces (List.zipWith entryText keys texts) := by
  intro h
  have hentries := entries_spec hkeys htexts
  have heq := braces_inj (items_spec htexts') (fun e he => (hentries e he).1) h
  have hmem : terminal ∈ List.zipWith entryText keys texts :=
    heq ▸ List.mem_append_right _ (.head _)
  exact (hentries terminal hmem).2 rfl

mutual

/-- Behind the definitions one text stands for one value. -/
theorem Shows.unique (h : Defines d) (hnames : NamesFit d.items) {node node' : CNode}
    {text : List Char} (hshows : Shows d.items node text) (hshows' : Shows d.items node' text)
    (hplain : Plain d.items node) (hplain' : Plain d.items node') : node.erase = node'.erase :=
  match hshows with
  | .value text => by
      obtain rfl | ⟨item, hitem, htext, -⟩ := hshows'.cases
      · rfl
      · cases hplain with
        | value _ _ _ haddress => exact absurd htext (haddress item hitem)
  | .object hdata hitem => by
      obtain rfl | ⟨item', hitem', htext, hdata'⟩ := hshows'.cases
      · cases hplain' with
        | value _ _ _ haddress => exact absurd rfl (haddress _ hitem)
      · obtain ⟨i, hi⟩ := List.getElem?_of_mem hitem
        obtain ⟨j, hj⟩ := List.getElem?_of_mem hitem'
        have hij := h.holds.link_inj (fun item hitem => (hnames item hitem).2) hi hj
          (List.cons.inj htext).2
        subst hij
        obtain rfl := Option.some.inj (hi.symm.trans hj)
        exact hdata.unique h hnames hdata' hplain hplain'

theorem ShowsAll.unique (h : Defines d) (hnames : NamesFit d.items) {nodes nodes' : List CNode}
    {texts : List (List Char)} (hshows : ShowsAll d.items nodes texts)
    (hshows' : ShowsAll d.items nodes' texts) (hplain : ∀ node ∈ nodes, Plain d.items node)
    (hplain' : ∀ node ∈ nodes', Plain d.items node) : eraseAll nodes = eraseAll nodes' :=
  match hshows with
  | .nil => by
      cases hshows'
      rfl
  | .cons hnode hnodes => by
      cases hshows' with
      | cons hnode' hnodes' =>
          rw [List.forall_mem_cons] at hplain hplain'
          rw [eraseAll, eraseAll, hnode.unique h hnames hnode' hplain.1 hplain'.1,
            hnodes.unique h hnames hnodes' hplain.2 hplain'.2]

theorem Renders.unique (h : Defines d) (hnames : NamesFit d.items) {node node' : CNode}
    {data : List Char} (hrenders : Renders d.items node data)
    (hrenders' : Renders d.items node' data)
    (hplain : Plain d.items node) (hplain' : Plain d.items node') : node.erase = node'.erase :=
  match hrenders with
  | .array type hnodes => by
      cases hplain with
      | array hplain =>
          have htexts := hnodes.plain h hnames hplain
          obtain ⟨type', nodes', texts', rfl, hnodes', hdata⟩ |
            ⟨type', keys', values', texts', rfl, hvalues', hdata⟩ := hrenders'.cases
          · cases hplain' with
            | array hplain' =>
                have htexts' := hnodes'.plain h hnames hplain'
                have heq := braces_inj
                  (items_spec fun text htext => ⟨(htexts text htext).1, (htexts text htext).2.1⟩)
                  (items_spec fun text htext => ⟨(htexts' text htext).1, (htexts' text htext).2.1⟩)
                  hdata
                obtain rfl := List.append_cancel_right heq
                rw [erase, erase, hnodes.unique h hnames hnodes' hplain hplain']
          · cases hplain' with
            | hash hlength hkeys hplain' =>
                have htexts' := hvalues'.plain h hnames hplain'
                exact absurd hdata (braces_array_ne_hash (fun key hkey => (hkeys key hkey).1)
                  (fun text htext => (htexts' text htext).1)
                  fun text htext => ⟨(htexts text htext).1, (htexts text htext).2.1⟩)
  | .hash type keys hvalues => by
      cases hplain with
      | hash hlength hkeys hplain =>
          have htexts := hvalues.plain h hnames hplain
          obtain ⟨type', nodes', texts', rfl, hnodes', hdata⟩ |
            ⟨type', keys', values', texts', rfl, hvalues', hdata⟩ := hrenders'.cases
          · cases hplain' with
            | array hplain' =>
                have htexts' := hnodes'.plain h hnames hplain'
                exact absurd hdata.symm (braces_array_ne_hash (fun key hkey => (hkeys key hkey).1)
                  (fun text htext => (htexts text htext).1)
                  fun text htext => ⟨(htexts' text htext).1, (htexts' text htext).2.1⟩)
          · cases hplain' with
            | hash hlength' hkeys' hplain' =>
                have htexts' := hvalues'.plain h hnames hplain'
                have heq := braces_inj
                  (fun e he => (entries_spec (fun key hkey => (hkeys key hkey).1)
                    (fun text htext => (htexts text htext).1) e he).1)
                  (fun e he => (entries_spec (fun key hkey => (hkeys' key hkey).1)
                    (fun text htext => (htexts' text htext).1) e he).1) hdata
                obtain ⟨rfl, rfl⟩ := zipWith_entryText_inj (hlength.trans hvalues.length_eq)
                  (hlength'.trans hvalues'.length_eq) (fun key hkey => (hkeys key hkey).2)
                  (fun key hkey => (hkeys' key hkey).2) (fun text htext => (htexts text htext).2.2)
                  (fun text htext => (htexts' text htext).2.2) heq
                rw [erase, erase, hvalues.unique h hnames hvalues' hplain hplain']

end

/-! ## Names of types -/

mutual

/-- The types of the objects of a value. -/
def types : CNode → List (List Char)
  | .value _ => []
  | .array type items => type :: typesAll items
  | .hash type _ values => type :: typesAll values

def typesAll : List CNode → List (List Char)
  | [] => []
  | node :: nodes => types node ++ typesAll nodes

end

/-- The types of the objects are names of types. -/
def TypesFit (types : List (List Char)) : Prop := ∀ type ∈ types, IsTypeName (lc type)

theorem register_namesFit {d : Dictionary} (hd : NamesFit d.items) {type : List Char}
    (htype : IsTypeName (lc type)) (data : List Char) :
    NamesFit (register type data d).2.items := by
  have hpush : NamesFit (d.push (lc type) ("amed_db_".toList ++ lc type) data).items := by
    intro item hitem
    obtain hitem | hitem := List.mem_append.mp hitem
    · exact hd item hitem
    · exact List.mem_singleton.mp hitem ▸ htype
  rw [register, Dictionary.add]
  dsimp only
  split
  · exact hpush
  · split
    · exact hd
    · exact hpush

mutual

/-- A definition is named after the type of its object. -/
theorem define_namesFit {d : Dictionary} (hd : NamesFit d.items) (node : CNode)
    (htypes : TypesFit node.types) : NamesFit (node.define d).2.items :=
  match node, htypes with
  | .value _, _ => hd
  | .array _ items, htypes => by
      obtain ⟨htype, hitems⟩ := List.forall_mem_cons.mp htypes
      exact register_namesFit (defineAll_namesFit hd items hitems) htype _
  | .hash _ _ values, htypes => by
      obtain ⟨htype, hvalues⟩ := List.forall_mem_cons.mp htypes
      exact register_namesFit (defineAll_namesFit hd values hvalues) htype _

theorem defineAll_namesFit {d : Dictionary} (hd : NamesFit d.items) (nodes : List CNode)
    (htypes : TypesFit (typesAll nodes)) : NamesFit (defineAll nodes d).2.items :=
  match nodes, htypes with
  | [], _ => hd
  | node :: nodes, htypes => by
      obtain ⟨hnode, hnodes⟩ := List.forall_mem_append.mp htypes
      exact defineAll_namesFit (define_namesFit hd node hnode) nodes hnodes

end

end CNode

open CNode

/-- A word that can name a type. -/
def isWordName (text : List Char) : Bool :=
  text.all isWord && isPlain (lc text) && (!text.isEmpty && Dictionary.endsInZeros (lc text))

theorem isTypeName_of_word {text : List Char} (h : isWordName text = true) :
    IsTypeName (lc text) := by
  rw [isWordName, Bool.and_eq_true, Bool.and_eq_true, Bool.and_eq_true] at h
  exact ⟨h.1.2, h.2.2⟩

/-- A value whose keys and types are words that can name types. -/
inductive Ast.Named : Ast → Prop
  | undefined : Named .undefined
  | scalar (text : List Char) : Named (.scalar text)
  | array {items : List Ast} (hitems : ∀ item ∈ items, Named item) : Named (.array items)
  | hash {fields : Ast.Fields} (hkeys : ∀ field ∈ fields, isWordName field.1 = true)
      (htype : has fields "type".toList = true →
        isWordName (get fields "type".toList).text = true)
      (hvalues : ∀ field ∈ fields, Named field.2) : Named (.hash fields)

namespace Ast.Named

variable {fields : Ast.Fields} {key : List Char} {value : Ast}

theorem get (h : Named (.hash fields)) (key : List Char) : Named (get fields key) := by
  cases h with
  | hash hkeys htype hvalues =>
      rw [Ast.get]
      cases hlookup : fields.lookup key with
      | none => exact .undefined
      | some value =>
          obtain ⟨front, rest, heq, -⟩ := List.lookup_eq_some_iff.mp hlookup
          exact hvalues (key, value) (heq ▸ List.mem_append_right _ List.mem_cons_self)

theorem set (h : Named (.hash fields)) (hkey : isWordName key = true) (hne : "type".toList ≠ key)
    (hvalue : Named value) : Named (.hash (set fields key value)) := by
  cases h with
  | hash hkeys htype hvalues =>
      refine .hash (fun field hfield => ?_) (fun hhas => ?_) fun field hfield => ?_
      · obtain rfl | hfield := mem_set hfield
        · exact hkey
        · exact hkeys field hfield
      · rw [has, lookup_set hne] at hhas
        rw [get_set hne]
        exact htype hhas
      · obtain rfl | hfield := mem_set hfield
        · exact hvalue
        · exact hvalues field hfield

theorem delete (h : Named (.hash fields)) (hne : "type".toList ≠ key) :
    Named (.hash (delete fields key)) := by
  cases h with
  | hash hkeys htype hvalues =>
      refine .hash (fun field hfield => hkeys field (List.mem_filter.mp hfield).1) (fun hhas => ?_)
        fun field hfield => hvalues field (List.mem_filter.mp hfield).1
      rw [has, Ast.delete, lookup_filter_ne hne] at hhas
      rw [get_delete hne]
      exact htype hhas

theorem shown (h : Named (.hash fields)) {field : List Char × Ast}
    (hfield : field ∈ shownFields fields) : isWordName field.1 = true ∧ Named field.2 := by
  cases h with
  | hash hkeys htype hvalues =>
      obtain rfl | hfield := mem_shownFields hfield
      · exact ⟨by decide, .scalar _⟩
      · exact ⟨hkeys field hfield, hvalues field hfield⟩

end Ast.Named

theorem typeOfName_word {text : List Char} (h : isWordName text = true) (front : List Char)
    (hfront : ∀ c ∈ front.getLast?, isWord c = false) : typeOfName (front ++ text) = text := by
  have hne : text ≠ [] := by
    rintro rfl
    cases h
  rw [isWordName, Bool.and_eq_true, Bool.and_eq_true, List.all_eq_true] at h
  have hword : lastWord (front ++ text) = text := by
    rw [lastWord, List.reverse_append,
      List.takeWhile_append_of_pos fun c hc => h.1.1 c (List.mem_reverse.mp hc)]
    have hnil : front.reverse.takeWhile isWord = [] := by
      rw [List.getLast?_eq_head?_reverse] at hfront
      cases hreverse : front.reverse with
      | nil => rfl
      | cons c cs =>
          rw [hreverse] at hfront
          exact List.takeWhile_cons_of_neg (by simp [hfront c rfl])
    rw [hnil, List.append_nil, List.reverse_reverse]
  rw [typeOfName, hword, if_neg hne]

namespace CNode

section

variable {σ : Type} {hook : Hook σ}

theorem typesFit_mapState {α : Type} {f : α → σ → Option (CNode × σ)} {as : List α}
    (h : ∀ a ∈ as, ∀ s r, f a s = some r → TypesFit r.1.types) {s : σ} {rs : List CNode × σ}
    (hrun : mapState f as s = some rs) : TypesFit (typesAll rs.1) := by
  induction as generalizing s rs with
  | nil =>
      cases hrun
      exact fun type htype => absurd htype List.not_mem_nil
  | cons a as ih =>
      obtain ⟨hhead, htail⟩ := List.forall_mem_cons.mp h
      rw [mapState] at hrun
      obtain ⟨r, hr, hrun⟩ := Option.bind_eq_some_iff.mp hrun
      obtain ⟨rest, hrest, rfl⟩ := Option.map_eq_some_iff.mp hrun
      exact List.forall_mem_append.mpr ⟨hhead s r hr, ih htail hrest⟩

/-- The types of what is written are keys and types of the value. -/
theorem typesFit_convertBy
    (hprocess : ∀ {node node' : Ast} {s s' : σ}, node.Named →
      hook.process node s = some (node', s') → node'.Named)
    {n : Nat} {qlf : List Char} {node : Ast} {s : σ} {r : CNode × σ} (hnode : node.Named)
    (hqlf : IsTypeName (lc (typeOfName qlf))) (h : convertBy hook n qlf node s = some r) :
    TypesFit r.1.types := by
  induction n generalizing qlf node s r with
  | zero => cases h
  | succ n ih =>
      rw [convertBy] at h
      obtain ⟨⟨node', s'⟩, hp, hr⟩ := Option.bind_eq_some_iff.mp h
      have hnamed := hprocess hnode hp
      cases node' with
      | undefined =>
          cases hr
          exact fun type htype => absurd htype List.not_mem_nil
      | scalar text =>
          cases hr
          exact fun type htype => absurd htype List.not_mem_nil
      | array items =>
          obtain ⟨rs, hrs, rfl⟩ := Option.map_eq_some_iff.mp hr
          cases hnamed with
          | array hitems =>
              exact List.forall_mem_cons.mpr ⟨hqlf, typesFit_mapState
                (fun item hitem _ _ hr => ih (hitems item hitem) hqlf hr) hrs⟩
      | hash fields =>
          obtain ⟨rs, hrs, rfl⟩ := Option.map_eq_some_iff.mp hr
          refine List.forall_mem_cons.mpr
            ⟨?_, typesFit_mapState (fun field hfield _ _ hr => ?_) hrs⟩
          · rw [typeOfHash]
            split
            · rename_i hhas
              cases hnamed with
              | hash hkeys htype hvalues => exact isTypeName_of_word (htype hhas)
            · exact hqlf
          · obtain ⟨hkey, hvalue⟩ := hnamed.shown hfield
            refine ih hvalue ?_ hr
            have hname := typeOfName_word hkey (qlf ++ ['.']) (by simp [isWord])
            rw [List.append_assoc, List.singleton_append] at hname
            rw [hname]
            exact isTypeName_of_word hkey

end

end CNode

end Amed.Generator
