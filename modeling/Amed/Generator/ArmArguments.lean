import Amed.Generator.TemplateTables
import Amed.Generator.Encodedin

/-!
# Arguments of ARM

`process_node` of `Generator::ARM` adds the masks of an expression to a table and leaves the index
of their row in the argument. A decoder reads the masks at the index from the instruction word; what
it gets are the bits that the expression names.
-/

namespace Amed.Generator

open Brackets Delimited Printing BitFields TextRange CNode
open Enum (uc)

/-! ## The table of masks -/

/-- An integer, as `%d` writes it. -/
def integerText : Int → List Char
  | .ofNat n => decimal n
  | .negSucc n => '-' :: decimal (n + 1)

/-- `mask_to_c` -/
def maskText (m : Nat × Int) : List Char :=
  '\x7b' :: (("0x".toList ++ hex 8 m.1 ++ ", ".toList ++ integerText m.2) ++ ['\x7d'])

/-- An integer constant of C, with its sign. -/
def readInteger : List Char → Option Int
  | '-' :: text => (readNumeral text).map fun n : Nat => -(n : Int)
  | text => (readNumeral text).map Int.ofNat

/-- An initializer of `amed_db_encodedin`, as the C compiler reads it. -/
def readMask (text : List Char) : Option DbEncodedin :=
  let entries := text.tail.dropLast
  (readNumeral (entries.takeWhile (· != ','))).bind fun mask =>
    (readInteger ((entries.dropWhile (· != ',')).drop 2)).map fun size => maskToC (mask, size)

/-- The masks from an index of the table on. -/
def readMasks (s : Sequence) (index : Nat) : List DbEncodedin :=
  (s.table.drop index).filterMap readMask

/-- The masks that `parse_encodedin` makes of an expression. -/
def masksOf (fields : List DiagramField) (text : List Char) : List (Nat × Int) :=
  mergeItems none ((scanItems fields text.length text).getD []) ++ [(0, 0)]

/-- The masks of an expression, as the C array has them. -/
theorem parseEncodedin_eq (fields : List DiagramField) (text : List Char) :
    parseEncodedin fields text = (masksOf fields text).map maskToC := rfl

/-- The row of an expression. -/
def maskRow (fields : List DiagramField) (text : List Char) : List (List Char) :=
  (masksOf fields text).map maskText

/-- C reads a written integer back, a negative one included. -/
theorem readInteger_integerText (n : Int) : readInteger (integerText n) = some n := by
  cases n with
  | ofNat n =>
      have hsign : ∀ text, decimal n ≠ '-' :: text := by
        intro text htext
        have hdigit : ∀ c ∈ decimal n, c ≠ '-' := forall_toDigits (by decide) (by decide) n
        exact hdigit '-' (htext ▸ List.mem_cons_self) rfl
      rw [integerText, readInteger, readNumeral_decimal]
      · rfl
      · exact hsign
  | negSucc n =>
      rw [integerText, readInteger, readNumeral_decimal, Option.map_some]
      congr 1

/-- The comma behind the mask is the first one. -/
theorem comma_not_mem_hex (n : Nat) : ',' ∉ '0' :: 'x' :: hex 8 n := by
  have hdigits : ∀ c ∈ Nat.toDigits 16 n, c ≠ ',' := forall_toDigits (by decide) (by decide) n
  intro h
  simp only [List.mem_cons, hex, List.leftpad, List.mem_append, List.mem_replicate] at h
  obtain h | h | h | h := h
  · cases h
  · cases h
  · cases h.2
  · exact hdigits _ h rfl

/-- The C compiler reads what `mask_to_c` writes. -/
theorem readMask_maskText (m : Nat × Int) : readMask (maskText m) = some (maskToC m) := by
  have hfront : ∀ c ∈ '0' :: 'x' :: hex 8 m.1, (c != ',') = true := fun c hc =>
    bne_iff_ne.mpr fun h => comma_not_mem_hex m.1 (h ▸ hc)
  have hentries : (maskText m).tail.dropLast =
      ('0' :: 'x' :: hex 8 m.1) ++ ',' :: ' ' :: integerText m.2 := by
    rw [maskText, List.tail_cons, List.dropLast_concat, List.append_assoc]
    rfl
  rw [readMask, hentries, List.takeWhile_append_of_pos hfront, List.dropWhile_append_of_pos hfront,
    List.takeWhile_cons_of_neg (by decide), List.dropWhile_cons_of_neg (by decide),
    List.append_nil, readNumeral_hex, Option.bind_some, List.drop_succ_cons, List.drop_succ_cons,
    List.drop_zero, readInteger_integerText, Option.map_some]

/-- A written mask is one initializer: its braces enclose it. -/
theorem isElement_maskText (m : Nat × Int) : IsElement (maskText m) := by
  have hdigits : ∀ {b : Nat}, 1 < b → b ≤ 16 → ∀ n, ∀ c ∈ Nat.toDigits b n, brace c = .plain := by
    intro b hb hb' n
    refine forall_toDigits hb (fun d hd => ?_) n
    have hall : ∀ d < 16, brace d.digitChar = .plain := by decide
    exact hall d (Nat.lt_of_lt_of_le hd hb')
  have hinteger : ∀ c ∈ integerText m.2, brace c = .plain := by
    cases m.2 with
    | ofNat n => exact hdigits (by decide) (by decide) n
    | negSucc n => exact List.forall_mem_cons.mpr ⟨rfl, hdigits (by decide) (by decide) (n + 1)⟩
  have hhex : ∀ c ∈ hex 8 m.1, brace c = .plain := by
    intro c hc
    obtain hc | hc := List.mem_append.mp hc
    · rw [List.eq_of_mem_replicate hc]
      rfl
    · exact hdigits (by decide) (by decide) m.1 c hc
  have hplain : ∀ c ∈ "0x".toList ++ hex 8 m.1 ++ ", ".toList ++ integerText m.2,
      brace c = .plain := by
    simp only [List.mem_append]
    rintro c (((hc | hc) | hc) | hc)
    · revert c
      simp [brace]
    · exact hhex c hc
    · revert c
      simp [brace]
    · exact hinteger c hc
  have hbalanced := balanced_of_plain hplain
  exact ⟨.pair rfl rfl hbalanced .nil, enclosed_brackets rfl rfl rfl rfl hbalanced⟩

/-! ## Reading the table -/

/-- A row stands in the table at an index. -/
def PlacedIn (s : Sequence) (index : Nat) (row : List (List Char)) : Prop :=
  ∃ arrays, s.Filled arrays ∧ Placed arrays index row

/-- At the index of a row the C compiler reads the masks of the expression. -/
theorem readMasks_of_placedIn {s : Sequence} {index : Nat} {fields : List DiagramField}
    {text : List Char} (h : PlacedIn s index (maskRow fields text)) :
    ∃ rest, readMasks s index = parseEncodedin fields text ++ rest := by
  obtain ⟨arrays, hfilled, hplaced⟩ := h
  obtain ⟨rest, hrest⟩ := hfilled.table_of_placed hplaced
  have hmasks : ∀ masks : List (Nat × Int),
      (masks.map maskText).filterMap readMask = masks.map maskToC := by
    intro masks
    induction masks with
    | nil => rfl
    | cons m masks ih =>
        rw [List.map_cons, List.filterMap_cons_some (readMask_maskText m), ih, List.map_cons]
  refine ⟨rest.filterMap readMask, ?_⟩
  rw [readMasks, hrest, List.filterMap_append, maskRow, hmasks, parseEncodedin_eq]

/-- The decoders read at the index of a row the bits that the expression names. -/
theorem readEncodedinValue_of_placedIn {s : Sequence} {index : Nat} (d : InstructionDiagram)
    {items : List Item} {slices : List Field}
    (h : PlacedIn s index (maskRow d.fields (exprText items)))
    (hslices : items.mapM (Item.slice d.fields) = some slices) (hwidth : totalWidth slices ≤ 32)
    (opcode : BitVec 32) :
    (readEncodedinValue (readMasks s index) opcode).1.toNat = concat slices opcode.toNat ∧
      (readEncodedinValue (readMasks s index) opcode).2 = totalWidth slices := by
  obtain ⟨rest, hrest⟩ := readMasks_of_placedIn h
  obtain ⟨pieces, groups, hrow, hreads, rfl⟩ := parseEncodedin_exprText d hslices hwidth
  have hread := readPieces_eq hreads rest opcode [] (by simpa [totalWidth] using hwidth) 0 rfl
  rw [hrest, hrow, readEncodedinValue, List.append_assoc, List.singleton_append]
  simpa [totalWidth] using hread

/-! ## `process_node` of `Generator::ARM` -/

/-- The loop over `^(\d+)x(\d+)`. -/
def product : Nat → List Char → List Char
  | 0, text => text
  | n + 1, text =>
      let left := text.takeWhile Char.isDigit
      match text.dropWhile Char.isDigit with
      | 'x' :: rest =>
          let right := rest.takeWhile Char.isDigit
          if left.isEmpty || right.isEmpty then text
          else
            product n (decimal (numberOf left * numberOf right) ++ rest.dropWhile Char.isDigit)
      | _ => text

/-- `^(\d+)x(\d+)$` without regard to capitals. -/
def elements (text : List Char) : Option (List Char × List Char) :=
  let left := text.takeWhile Char.isDigit
  let right := (text.dropWhile Char.isDigit).tail
  if left.isEmpty || lc ((text.dropWhile Char.isDigit).take 1) ≠ ['x'] ||
      (right.takeWhile Char.isDigit).isEmpty || !atEnd (right.dropWhile Char.isDigit) then none
  else some (left, right.takeWhile Char.isDigit)

/-- `^word$` without regard to capitals. -/
def isWordOnly (word text : List Char) : Bool :=
  lc (text.take word.length) = word && atEnd (text.drop word.length)

/-- `process_size` -/
def processSize (size : List Char) : Option Ast.Fields :=
  let size := product size.length size
  let counts := if lc (size.take 1) = ['v'] then elements size.tail else none
  match counts with
  | some (esize, size) =>
      some [("esize".toList, .scalar esize), ("size".toList, .scalar size)]
  | none =>
      if isWordOnly "vl".toList size || isWordOnly "pl".toList size then
        some [("size".toList, .scalar (uc (size.take 2)))]
      else if !(size.takeWhile Char.isDigit).isEmpty && atEnd (size.dropWhile Char.isDigit) then
        some [("size".toList, .scalar (size.takeWhile Char.isDigit))]
      else none

/-- `$node->{$key} = $node->{$key}->{value}`, for a key that is there. -/
def takeValue (key : List Char) (fields : Ast.Fields) : Option Ast.Fields :=
  if Ast.has fields key then
    match Ast.get fields key with
    | .hash inner => some (Ast.set fields key (Ast.get inner "value".toList))
    | .undefined => some (Ast.set fields key .undefined)
    | _ => none
  else some fields

/-- `$node->{symbol} = delete $node->{kind}`, where it is there. -/
def kindToSymbol (fields : Ast.Fields) : Ast.Fields :=
  if Ast.has fields "kind".toList then
    Ast.set (Ast.delete fields "kind".toList) "symbol".toList (Ast.get fields "kind".toList)
  else fields

/-- The size of a memory operand. -/
def splitSize (fields : Ast.Fields) : Option Ast.Fields :=
  let type := (Ast.get fields "type".toList).text
  if (isWordOnly "mem".toList type || isWordOnly "lm".toList type) &&
      Ast.has fields "size".toList then
    (processSize (Ast.get fields "size".toList).text).map fun size =>
      Ast.set fields "size".toList (.hash size)
  else some fields

/-- The changes to a hash, but for its `encodedin`. -/
def armFields (fields : Ast.Fields) : Option Ast.Fields :=
  (takeValue "vdt".toList fields).bind fun fields =>
    (takeValue "vds".toList fields).bind fun fields =>
      splitSize (kindToSymbol (Ast.delete fields "range".toList))

/-- The index of the row of masks takes the place of an expression. -/
def registerEncodedin (diagram : List DiagramField) (fields : Ast.Fields) (s : Sequence) :
    Ast.Fields × Sequence :=
  let encodedin := Ast.get fields "encodedin".toList
  if encodedin.isDefined then
    let added := s.add (maskRow diagram encodedin.text)
    let index := (added.2.items[added.1]?.map SequenceItem.index).getD 0
    (Ast.set fields "encodedin".toList (.scalar (decimal index)),
      added.2.setComment added.1 encodedin.text)
  else (fields, s)

/-- `process_node` of `Generator::ARM`. -/
def armNode (diagram : List DiagramField) : Ast → Sequence → Option (Ast × Sequence)
  | .hash fields, s =>
      (armFields fields).map fun fields =>
        let r := registerEncodedin diagram fields s
        (.hash r.1, r.2)
  | node, s => some (node, s)

/-! ## The depth of what is written -/

/-- A hash with a type may be given one more level. -/
def armRank : Ast → Nat
  | .hash fields => 2 * (Ast.hash fields).depth + (Ast.get fields "type".toList).isDefined.toNat
  | node => 2 * node.depth

/-- The rank of a node is at most twice its depth and one. -/
theorem armRank_le (node : Ast) : armRank node ≤ 2 * node.depth + 1 := by
  cases node with
  | hash fields => exact Nat.add_le_add_left (Bool.toNat_le _) _
  | _ => exact Nat.le_succ _

/-- The rank of a node is at least twice its depth. -/
theorem two_mul_depth_le (node : Ast) : 2 * node.depth ≤ armRank node := by
  cases node with
  | hash fields => exact Nat.le_add_right _ _
  | _ => exact Nat.le_refl _

/-- The values of some fields have ranks below a bound. -/
def RanksBelow (n : Nat) (fields : Ast.Fields) : Prop := ∀ field ∈ fields, armRank field.2 < n

section

variable {n : Nat} {fields fields' : Ast.Fields} {key : List Char}

/-- What a node holds has a lower rank. -/
theorem ranksBelow_hash (fields : Ast.Fields) : RanksBelow (armRank (.hash fields)) fields := by
  intro field hfield
  have hdepth := Ast.depth_le_of_field hfield
  have hrank := armRank_le field.2
  have hhash := two_mul_depth_le (.hash fields)
  rw [Ast.depth] at hhash
  omega

/-- A field that is looked up is one of the fields, or undefined. -/
theorem RanksBelow.get (h : RanksBelow n fields) (hn : 0 < n) (key : List Char) :
    armRank (Ast.get fields key) < n := by
  rw [Ast.get]
  cases hlookup : fields.lookup key with
  | none => exact hn
  | some value =>
      obtain ⟨front, rest, heq, -⟩ := List.lookup_eq_some_iff.mp hlookup
      exact h (key, value) (heq ▸ List.mem_append_right _ List.mem_cons_self)

/-- A new value of a lower rank keeps the ranks below the bound. -/
theorem RanksBelow.set (h : RanksBelow n fields) {value : Ast} (hvalue : armRank value < n) :
    RanksBelow n (Ast.set fields key value) := by
  intro field hfield
  obtain rfl | hfield := Ast.mem_set hfield
  · exact hvalue
  · exact h field hfield

theorem RanksBelow.delete (h : RanksBelow n fields) (key : List Char) :
    RanksBelow n (Ast.delete fields key) := fun field hfield =>
  h field (List.mem_filter.mp hfield).1

/-- Taking the value of a key out keeps the ranks and the type. -/
theorem takeValue_spec (h : RanksBelow n fields) (hn : 0 < n) (hkey : "type".toList ≠ key)
    (htake : takeValue key fields = some fields') :
    RanksBelow n fields' ∧ Ast.get fields' "type".toList = Ast.get fields "type".toList := by
  have hget := h.get hn key
  rw [takeValue] at htake
  split at htake
  · split at htake
    · rename_i inner hinner
      cases htake
      rw [hinner] at hget
      have hbelow := (ranksBelow_hash inner).get (by
        have := two_mul_depth_le (.hash inner)
        rw [Ast.depth] at this
        omega) "value".toList
      exact ⟨h.set (Nat.lt_trans hbelow hget), Ast.get_set hkey _ _⟩
    · cases htake
      exact ⟨h.set hn, Ast.get_set hkey _ _⟩
    · cases htake
  · cases htake
    exact ⟨h, rfl⟩

/-- `kind` becomes `symbol`, which changes neither the ranks nor the type. -/
theorem kindToSymbol_spec (h : RanksBelow n fields) (hn : 0 < n) :
    RanksBelow n (kindToSymbol fields) ∧
      Ast.get (kindToSymbol fields) "type".toList = Ast.get fields "type".toList := by
  rw [kindToSymbol]
  split
  · refine ⟨(h.delete _).set (h.get hn _), ?_⟩
    rw [Ast.get_set (by decide), Ast.get_delete (by decide)]
  · exact ⟨h, rfl⟩

/-- A size is a hash of scalars. -/
theorem armRank_size {text : List Char} {size : Ast.Fields} (h : processSize text = some size) :
    armRank (.hash size) ≤ 2 := by
  rw [processSize] at h
  split at h
  · cases h
    rfl
  · split at h
    · cases h
      rfl
    · split at h
      · cases h
        rfl
      · cases h

/-- The type of an argument is split at its size. The hash of the size replaces a scalar, so a
type needs a rank to spare. -/
theorem splitSize_ranksBelow (h : RanksBelow n fields)
    (htype : (Ast.get fields "type".toList).isDefined = true → 2 < n)
    (hsplit : splitSize fields = some fields') : RanksBelow n fields' := by
  rw [splitSize] at hsplit
  split at hsplit
  · rename_i hcondition
    obtain ⟨size, hsize, rfl⟩ := Option.map_eq_some_iff.mp hsplit
    refine h.set (Nat.lt_of_le_of_lt (armRank_size hsize) (htype ?_))
    -- a type that is a word is there
    cases hget : Ast.get fields "type".toList with
    | undefined =>
        rw [hget] at hcondition
        cases hcondition
    | _ => rfl
  · cases hsplit
    exact h

/-- The steps of `process_node` on the fields keep all ranks below that of the node. -/
theorem armFields_ranksBelow (h : armFields fields = some fields') :
    RanksBelow (armRank (.hash fields)) fields' := by
  have hdepth := two_mul_depth_le (.hash fields)
  rw [Ast.depth] at hdepth
  have hn : 0 < armRank (.hash fields) := by omega
  rw [armFields] at h
  obtain ⟨fields₁, h₁, h⟩ := Option.bind_eq_some_iff.mp h
  obtain ⟨fields₂, h₂, h⟩ := Option.bind_eq_some_iff.mp h
  obtain ⟨hbelow₁, htype₁⟩ := takeValue_spec (ranksBelow_hash fields) hn (by decide) h₁
  obtain ⟨hbelow₂, htype₂⟩ := takeValue_spec hbelow₁ hn (by decide) h₂
  obtain ⟨hbelow₃, htype₃⟩ := kindToSymbol_spec (hbelow₂.delete "range".toList) hn
  refine splitSize_ranksBelow hbelow₃ (fun hdefined => ?_) h
  rw [htype₃, Ast.get_delete (by decide), htype₂, htype₁] at hdefined
  rw [armRank, hdefined, Ast.depth]
  simp only [Bool.toNat_true]
  omega

/-- The index of the row of masks is a scalar. -/
theorem registerEncodedin_ranksBelow (h : RanksBelow n fields) (hn : 0 < n)
    (diagram : List DiagramField) (s : Sequence) :
    RanksBelow n (registerEncodedin diagram fields s).1 := by
  rw [registerEncodedin]
  split
  · exact h.set hn
  · exact h

/-- What is written of the fields is some of them. -/
theorem shownFields_ranksBelow (h : RanksBelow n fields) (hn : 0 < n) :
    RanksBelow n (shownFields fields) := by
  intro field hfield
  obtain hzero | hfield := depth_of_shown hfield
  · cases hvalue : field.2 with
    | undefined => exact hn
    | scalar text => exact hn
    | array items =>
        rw [hvalue] at hzero
        cases hzero
    | hash fields =>
        rw [hvalue] at hzero
        cases hzero
  · exact h field hfield

end

/-- The nodes that are written below a node have a lower rank, so writing ends. -/
theorem armRank_writtenBelow {diagram : List DiagramField} {node node' : Ast} {s s' : Sequence}
    (h : armNode diagram node s = some (node', s')) :
    ∀ child ∈ writtenBelow node', armRank child < armRank node := by
  intro child hchild
  cases node with
  | undefined =>
      cases h
      cases hchild
  | scalar text =>
      cases h
      cases hchild
  | array items =>
      cases h
      have hdepth : child.depth ≤ Ast.depthOfItems items := Ast.depth_le_of_item hchild
      have hrank := armRank_le child
      have harray : armRank (.array items) = 2 * (Ast.depthOfItems items + 1) := rfl
      omega
  | hash fields =>
      obtain ⟨fields', hfields, h⟩ := Option.map_eq_some_iff.mp h
      cases h
      obtain ⟨field, hfield, rfl⟩ := List.mem_map.mp hchild
      have hdepth := two_mul_depth_le (.hash fields)
      rw [Ast.depth] at hdepth
      have hn : 0 < armRank (.hash fields) := by omega
      exact shownFields_ranksBelow
        (registerEncodedin_ranksBelow (armFields_ranksBelow hfields) hn diagram s) hn field hfield

def armHook (diagram : List DiagramField) : Hook Sequence where
  process := armNode diagram
  isHash h := by
    obtain ⟨fields', -, h⟩ := Option.map_eq_some_iff.mp h
    cases h
    exact ⟨_, rfl⟩
  rank := armRank
  rank_lt := armRank_writtenBelow

/-! ## The names of what is written -/

section

variable {fields fields' : Ast.Fields} {key : List Char}

/-- Taking a value out brings no new key but the one it is stored under. -/
theorem takeValue_named (h : (Ast.hash fields).Named) (hkey : isWordName key = true)
    (hne : "type".toList ≠ key) (htake : takeValue key fields = some fields') :
    (Ast.hash fields').Named := by
  have hget := h.get key
  rw [takeValue] at htake
  split at htake
  · split at htake
    · rename_i inner hinner
      cases htake
      rw [hinner] at hget
      exact h.set hkey hne (hget.get _)
    · cases htake
      exact h.set hkey hne .undefined
    · cases htake
  · cases htake
    exact h

theorem kindToSymbol_named (h : (Ast.hash fields).Named) :
    (Ast.hash (kindToSymbol fields)).Named := by
  rw [kindToSymbol]
  split
  · exact (h.delete (by decide)).set (by decide) (by decide) (h.get _)
  · exact h

theorem processSize_named {text : List Char} {size : Ast.Fields}
    (h : processSize text = some size) : (Ast.hash size).Named := by
  have hsize : isWordName "size".toList = true := by decide
  have hesize : isWordName "esize".toList = true := by decide
  have hone : ∀ text, (Ast.hash [("size".toList, .scalar text)]).Named := fun text =>
    .hash (by simpa using hsize) (fun htype => by cases htype) (by simp [Ast.Named.scalar])
  rw [processSize] at h
  split at h
  · cases h
    exact .hash (by simpa using ⟨hesize, hsize⟩) (fun htype => by cases htype)
      (by simp [Ast.Named.scalar])
  · split at h
    · cases h
      exact hone _
    · split at h
      · cases h
        exact hone _
      · cases h

/-- A size has the keys that `processSize` writes. -/
theorem splitSize_named (h : (Ast.hash fields).Named) (hsplit : splitSize fields = some fields') :
    (Ast.hash fields').Named := by
  rw [splitSize] at hsplit
  split at hsplit
  · obtain ⟨size, hsize, rfl⟩ := Option.map_eq_some_iff.mp hsplit
    exact h.set (by decide) (by decide) (processSize_named hsize)
  · cases hsplit
    exact h

/-- All keys that `process_node` adds are names of members. -/
theorem armFields_named (h : (Ast.hash fields).Named) (hfields : armFields fields = some fields') :
    (Ast.hash fields').Named := by
  rw [armFields] at hfields
  obtain ⟨fields₁, h₁, hfields⟩ := Option.bind_eq_some_iff.mp hfields
  obtain ⟨fields₂, h₂, hfields⟩ := Option.bind_eq_some_iff.mp hfields
  have hvds := takeValue_named (takeValue_named h (by decide) (by decide) h₁) (by decide)
    (by decide) h₂
  exact splitSize_named (kindToSymbol_named (hvds.delete (by decide))) hfields

theorem registerEncodedin_named (h : (Ast.hash fields).Named) (diagram : List DiagramField)
    (s : Sequence) : (Ast.hash (registerEncodedin diagram fields s).1).Named := by
  rw [registerEncodedin]
  split
  · exact h.set (by decide) (by decide) (.scalar _)
  · exact h

end

/-- `process_node` of ARM keeps the keys of an argument names of members. -/
theorem keepsNames_armHook (diagram : List DiagramField) : KeepsNames (armHook diagram) := by
  intro node node' s s' hnode h
  cases node with
  | hash fields =>
      obtain ⟨fields', hfields, h⟩ := Option.map_eq_some_iff.mp h
      cases h
      exact registerEncodedin_named (armFields_named hnode hfields) diagram s
  | _ =>
      cases h
      exact hnode

/-! ## The tables of `Generator::ARM` -/

/-- Only rows are added to the table of masks. -/
def RowsAdded (s s' : Sequence) : Prop :=
  ∀ arrays, s.Filled arrays → ∃ more, s'.Filled (arrays ++ more)

theorem RowsAdded.refl (s : Sequence) : RowsAdded s s := fun arrays hfilled =>
  ⟨[], (List.append_nil arrays).symm ▸ hfilled⟩

theorem RowsAdded.trans {s s' s'' : Sequence} (h : RowsAdded s s') (h' : RowsAdded s' s'') :
    RowsAdded s s'' := by
  intro arrays hfilled
  obtain ⟨more, hfilled'⟩ := h arrays hfilled
  obtain ⟨more', hfilled''⟩ := h' _ hfilled'
  exact ⟨more ++ more', List.append_assoc .. ▸ hfilled''⟩

/-- A row that is placed stays where it is when rows are added. -/
theorem PlacedIn.mono {s s' : Sequence} (hle : RowsAdded s s') {index : Nat}
    {row : List (List Char)} (h : PlacedIn s index row) : PlacedIn s' index row := by
  obtain ⟨arrays, hfilled, hplaced⟩ := h
  obtain ⟨more, hfilled'⟩ := hle arrays hfilled
  exact ⟨_, hfilled', hplaced.append more⟩

/-- What `process_node` makes of a value: in place of an expression stands the index of its row. -/
inductive ArmChanges (s : Sequence) (diagram : List DiagramField) : Ast → Ast → Prop
  | other {node : Ast} (h : ∀ fields, node ≠ .hash fields) : ArmChanges s diagram node node
  | plain {fields fields' : Ast.Fields} (h : armFields fields = some fields')
      (hnone : (Ast.get fields' "encodedin".toList).isDefined = false) :
      ArmChanges s diagram (.hash fields) (.hash fields')
  | encoded {fields fields' : Ast.Fields} {index : Nat} (h : armFields fields = some fields')
      (hsome : (Ast.get fields' "encodedin".toList).isDefined = true)
      (hplaced : PlacedIn s index (maskRow diagram (Ast.get fields' "encodedin".toList).text)) :
      ArmChanges s diagram (.hash fields)
        (.hash (Ast.set fields' "encodedin".toList (.scalar (decimal index))))

/-- What a node became in a table holds in every later table. -/
theorem ArmChanges.mono {s s' : Sequence} {diagram : List DiagramField} (hle : RowsAdded s s')
    {node node' : Ast} (h : ArmChanges s diagram node node') :
    ArmChanges s' diagram node node' := by
  cases h with
  | other h => exact .other h
  | plain h hnone => exact .plain h hnone
  | encoded h hsome hplaced => exact .encoded h hsome (hplaced.mono hle)

/-- Adding the row of an expression gives an index at which the row is found. -/
theorem add_maskRow {s : Sequence} {arrays : List (List (List Char))} (h : s.Filled arrays)
    (diagram : List DiagramField) (text : List Char) :
    ∃ more, (s.add (maskRow diagram text)).2.Filled (arrays ++ more) ∧
      ∃ index, (s.add (maskRow diagram text)).2.items[(s.add (maskRow diagram text)).1]?.map
        SequenceItem.index = some index ∧ Placed (arrays ++ more) index (maskRow diagram text) := by
  refine h.add ?_ fun e he => ?_
  · rw [maskRow, masksOf, List.map_append]
    exact List.append_ne_nil_of_right_ne_nil _ (List.cons_ne_nil _ _)
  · obtain ⟨m, -, rfl⟩ := List.mem_map.mp he
    exact isElement_maskText m

/-- One node: the table grows, and the index in the argument is that of its row. -/
theorem armNode_spec {diagram : List DiagramField} {node node' : Ast} {s s' : Sequence}
    (hs : ∃ arrays, s.Filled arrays) (h : armNode diagram node s = some (node', s')) :
    (∃ arrays, s'.Filled arrays) ∧ RowsAdded s s' ∧ ArmChanges s' diagram node node' := by
  cases node with
  | undefined =>
      cases h
      exact ⟨hs, .refl s, .other fun fields h => by cases h⟩
  | scalar text =>
      cases h
      exact ⟨hs, .refl s, .other fun fields h => by cases h⟩
  | array items =>
      cases h
      exact ⟨hs, .refl s, .other fun fields h => by cases h⟩
  | hash fields =>
      obtain ⟨fields', hfields, h⟩ := Option.map_eq_some_iff.mp h
      cases h
      rw [registerEncodedin]
      dsimp only
      cases hdefined : (Ast.get fields' "encodedin".toList).isDefined with
      | false => exact ⟨hs, .refl s, .plain hfields hdefined⟩
      | true =>
          rw [if_pos rfl]
          dsimp only
          have hadded := fun arrays (hfilled : s.Filled arrays) =>
            add_maskRow hfilled diagram (Ast.get fields' "encodedin".toList).text
          obtain ⟨arrays, hfilled⟩ := hs
          obtain ⟨more, hfilled', index, hindex, hplaced⟩ := hadded arrays hfilled
          refine ⟨⟨_, hfilled'.setComment _ _⟩, fun arrays hfilled => ?_, ?_⟩
          · obtain ⟨more, hfilled', -⟩ := hadded arrays hfilled
            exact ⟨more, hfilled'.setComment _ _⟩
          · rw [hindex]
            exact .encoded hfields hdefined ⟨_, hfilled'.setComment _ _, hplaced⟩

/-- `Generator::ARM`, with the fields of the diagram of each encoding. -/
def armChanges : ProcessSpec fun d : InstructionDiagram => armHook d.fields where
  Inv s := ∃ arrays, s.Filled arrays
  Le := RowsAdded
  Changes s d := ArmChanges s d.fields
  le_refl := .refl
  le_trans := .trans
  mono hle h := h.mono hle
  step hs h := armNode_spec hs h

/-- The table of masks with its first row. -/
def newMasks (arch : List Char) : Sequence :=
  ((Sequence.new ("amed_".toList ++ arch ++ "_encodedins_array".toList)
    "amed_db_encodedin".toList).add [maskText (0, 0)]).2

/-- The table starts with the row of the empty expression. -/
theorem newMasks_filled (arch : List Char) : ∃ arrays, (newMasks arch).Filled arrays := by
  obtain ⟨more, hfilled, -⟩ := (Sequence.new_filled _ _).add (List.cons_ne_nil _ _)
    fun e he => List.mem_singleton.mp he ▸ isElement_maskText (0, 0)
  exact ⟨_, hfilled⟩

/-- The tables of `Generator::ARM`. -/
def armTables (arch : List Char) (records : List (TemplatesRecord InstructionDiagram)) :
    Option (TemplateState Sequence) :=
  templateTables (fun d => armHook d.fields) (newMasks arch)
    ("amed_".toList ++ arch ++ "_arguments_array".toList) records

/-- The values that the decoders read at the rows of masks. -/
def RowsRead (s : Sequence) : Prop :=
  ∀ {d : InstructionDiagram} {items : List Item} {slices : List Field} {index : Nat},
    PlacedIn s index (maskRow d.fields (exprText items)) →
    items.mapM (Item.slice d.fields) = some slices → totalWidth slices ≤ 32 →
    ∀ opcode : BitVec 32,
      (readEncodedinValue (readMasks s index) opcode).1.toNat =
          concat slices opcode.toNat ∧
        (readEncodedinValue (readMasks s index) opcode).2 = totalWidth slices

/-- The tables lead from every template to its own arguments, and from their indices of masks to the
bits that the expressions name. -/
structure ArmLeads (records : List (TemplatesRecord InstructionDiagram))
    (s : TemplateState Sequence) : Prop where
  leads : Leads armChanges.toHookSpec records s
  reads : RowsRead s.hook

theorem armTables_lead {arch : List Char} {records : List (TemplatesRecord InstructionDiagram)}
    (hnamed : ArgumentsNamed records) {s : TemplateState Sequence}
    (h : armTables arch records = some s) : ArmLeads records s := by
  refine ⟨templateTables_lead armChanges.toHookSpec (newMasks_filled arch)
    (fun d => keepsNames_armHook d.fields) hnamed h, ?_⟩
  exact fun hplaced hslices hwidth opcode =>
    readEncodedinValue_of_placedIn _ hplaced hslices hwidth opcode

/-! ## An argument with an expression -/

theorem depth_registerEncodedin {diagram : List DiagramField} {fields : Ast.Fields} {s : Sequence}
    {field : List Char × Ast} (h : field ∈ (registerEncodedin diagram fields s).1) :
    field.2.depth = 0 ∨ field ∈ fields := by
  rw [registerEncodedin] at h
  split at h
  · obtain rfl | h := Ast.mem_set h
    · exact .inl rfl
    · exact .inr h
  · exact .inr h

/-- A vector register at `M:Vm<2:0>`. -/
def vmArgument : Ast.Fields :=
  [("type".toList, .scalar "VREG".toList), ("encodedin".toList, .scalar (exprText vmItems)),
    ("read".toList, .scalar ['1'])]

def vmRecords : List (TemplatesRecord InstructionDiagram) :=
  [⟨vmDiagram, [⟨"vmov s0, vm".toList, [vmArgument]⟩]⟩]

theorem armFields_vmArgument : armFields vmArgument = some vmArgument := by rfl

theorem depth_vmArgument : ∀ field ∈ vmArgument, field.2.depth = 0 := by
  simp [vmArgument, Ast.depth]

theorem armNode_vmArgument (diagram : List DiagramField) (s : Sequence) :
    armNode diagram (.hash vmArgument) s =
      some (.hash (registerEncodedin diagram vmArgument s).1,
        (registerEncodedin diagram vmArgument s).2) := by
  rw [armNode, armFields_vmArgument]
  rfl

theorem vmRecords_named : ArgumentsNamed vmRecords := by
  have hvm : (Ast.hash vmArgument).Named :=
    .hash (List.all_eq_true.mp (by decide)) (fun _ => by decide)
      (by simp [vmArgument, Ast.Named.scalar])
  simp [ArgumentsNamed, vmRecords, hvm]

theorem exists_vmTables : ∃ s, armTables "aarch32".toList vmRecords = some s := by
  have haccepts : ∀ (d : InstructionDiagram) node s, node.depth = 0 ∨ node = .hash vmArgument →
      ∃ p, (armHook d.fields).process node s = some p ∧
        ∀ child ∈ writtenBelow p.1, child.depth = 0 ∨ child = .hash vmArgument := by
    rintro d node s (hzero | rfl)
    · cases node with
      | hash fields => cases hzero
      | array items => cases hzero
      | _ => exact ⟨_, rfl, fun child hchild => absurd hchild List.not_mem_nil⟩
    · refine ⟨_, armNode_vmArgument d.fields s, fun child hchild => .inl ?_⟩
      obtain ⟨field, hfield, rfl⟩ := List.mem_map.mp hchild
      obtain hzero | hfield := depth_of_shown hfield
      · exact hzero
      · exact (depth_registerEncodedin hfield).elim id (depth_vmArgument field)
  exact exists_templateTables haccepts (by simp [vmRecords]) _ _

theorem armTables_lead_vm : ∃ s, armTables "aarch32".toList vmRecords = some s ∧
    ArmLeads vmRecords s := by
  obtain ⟨s, hs⟩ := exists_vmTables
  exact ⟨s, hs, armTables_lead vmRecords_named hs⟩

end Amed.Generator
