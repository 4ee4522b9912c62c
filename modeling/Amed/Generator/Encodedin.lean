import Amed.Shared.Encodedin
import Amed.Generator.Binary
import Amed.Library.TextRange

/-!
# The encoded values of the ARM generator

`parse_encodedin` reads an expression over the fields of an instruction diagram, such as
`i:imm3:imm8` or `Q:size<1>`, and turns it into the masks that the decoders fold over an
opcode.

## Implementation notes

Positions and sizes of fields are those of the diagram record; its other members belong to the
condition expressions. The scanner works on characters, as the regular expressions do; its
fuel is the length of the text. A Perl number is a plain number here. The bounds of a slice are
texts until their difference is taken, so the range of a mask is the one between two texts: behind
a low bound with leading zeros it is not that of the numbers.
-/

namespace Amed.Generator

open BitFields TextRange

/-- A field of an instruction diagram. `value` has a character for each bit, most significant
first. -/
structure DiagramField where
  name : List Char
  pos : Nat
  size : Nat
  value : List PatternBit := []
  deriving DecidableEq, Repr

def DiagramField.field (f : DiagramField) : Field := ⟨f.pos, f.size⟩

/-- The hash of the fields by their names: a later field replaces an earlier one. -/
def lookupField (fields : List DiagramField) (name : List Char) : Option DiagramField :=
  fields.reverse.find? fun f => f.name = name

/-! ## The scanner -/

def isWord (c : Char) : Bool := c.isAlphanum || c = '_'

/-- `\s*(\w+)\s*` -/
def scanName (cs : List Char) : Option (List Char × List Char) :=
  let cs := cs.dropWhile Char.isWhitespace
  match cs.takeWhile isWord with
  | [] => none
  | name => some (name, (cs.dropWhile isWord).dropWhile Char.isWhitespace)

/-- `(\d+)` -/
def scanNumber (cs : List Char) : Option (List Char × List Char) :=
  match cs.takeWhile Char.isDigit with
  | [] => none
  | ds => some (ds, cs.dropWhile Char.isDigit)

/-- `<(\d+):(\d+)>`, or `<(\d+)>`: the texts of the high and the low bit. -/
def scanSlice (cs : List Char) : Option ((List Char × List Char) × List Char) :=
  match cs with
  | '<' :: cs =>
      match scanNumber cs with
      | some (high, ':' :: cs) =>
          match scanNumber cs with
          | some (low, '>' :: cs) => some ((high, low), cs)
          | _ => none
      | some (n, '>' :: cs) => some ((n, n), cs)
      | _ => none
  | _ => none

/-- An item of the list `@encodedin`. -/
structure EncodedItem where
  pos : Nat
  size : Int
  mask : Nat
  deriving DecidableEq, Repr

/-- `get_mask_from_range` of two texts, as the operator `..` counts between them. -/
def getMaskFromTexts (low high : List Char) : Nat :=
  (range low high).foldl (fun mask i => mask ||| 1 <<< i) 0

/-- The item of a field and the bits asked for. -/
def encodedItem (parent : DiagramField) : Option (List Char × List Char) → EncodedItem
  | some (high, low) =>
      { pos := parent.pos
        size := if numberOf high = numberOf low then 1 else (numberOf high : Int) - numberOf low + 1
        mask := getMaskFromTexts low high <<< parent.pos }
  | none =>
      { pos := parent.pos
        size := parent.size
        mask := getMaskOfSize parent.size <<< parent.pos }

/-- The loop that reads the expression; an unknown name is an error. -/
def scanItems (fields : List DiagramField) : Nat → List Char → Option (List EncodedItem)
  | 0, _ => some []
  | fuel + 1, cs =>
      match scanName cs with
      | none => some []
      | some (name, cs) =>
          let slice := scanSlice cs
          let cs := (slice.map Prod.snd).getD cs
          match lookupField fields name with
          | none => none
          | some parent =>
              let item := encodedItem parent (slice.map Prod.fst)
              match cs with
              | ':' :: cs => (scanItems fields fuel cs).map (item :: ·)
              | _ => some [item]

/-! ## The masks -/

/-- The variables `$pos`, `$mask` and `$sz` while a mask is put together. -/
structure MergeGroup where
  pos : Nat
  mask : Nat
  sz : Int
  deriving DecidableEq, Repr

def MergeGroup.start (item : EncodedItem) : MergeGroup := ⟨item.pos, item.mask, item.size⟩

/-- The loop that merges neighbours whose positions descend: the masks pushed from here on. -/
def mergeItems : Option MergeGroup → List EncodedItem → List (Nat × Int)
  | none, [] => []
  | some g, [] => [(g.mask, g.sz)]
  | none, item :: items => mergeItems (some (.start item)) items
  | some g, item :: items =>
      if item.pos < g.pos then
        mergeItems (some ⟨item.pos, g.mask ||| item.mask, g.sz + item.size⟩) items
      else (g.mask, g.sz) :: mergeItems (some (.start item)) items

/-- `mask_to_c`, read by the C compiler. -/
def maskToC (m : Nat × Int) : DbEncodedin := ⟨BitVec.ofNat 32 m.1, (m.2 % 256).toNat⟩

/-- `parse_encodedin`: the row of the mask table, with the empty mask that ends it. -/
def parseEncodedin (fields : List DiagramField) (text : List Char) : List DbEncodedin :=
  let items := (scanItems fields text.length text).getD []
  (mergeItems none items ++ [(0, 0)]).map maskToC

/-! ## Expressions -/

/-- The name of a field. -/
def Name : Type := { cs : List Char // cs ≠ [] ∧ ∀ c ∈ cs, isWord c = true }

/-- A decimal number, without leading zeros. -/
def Numeral : Type := { ds : List Char // Canonical ds }

def Numeral.number (n : Numeral) : Nat := numberOf n.val

/-- The part of a field that an item asks for. -/
inductive Part
  | whole
  | bit (n : Numeral)
  | range (high low : Numeral)

def Part.text : Part → List Char
  | .whole => []
  | .bit n => '<' :: n.val ++ ['>']
  | .range high low => '<' :: high.val ++ ':' :: low.val ++ ['>']

/-- An item of a concatenation. -/
structure Item where
  name : Name
  part : Part

def Item.text (item : Item) : List Char := item.name.val ++ item.part.text

/-- The text of a concatenation, the first item most significant. -/
def exprText : List Item → List Char
  | [] => []
  | [item] => item.text
  | item :: items => item.text ++ ':' :: exprText items

/-- The bounds of a part, high and low. -/
def Part.bounds : Part → Option (Numeral × Numeral)
  | .whole => none
  | .bit n => some (n, n)
  | .range high low => some (high, low)

/-- The texts of the bounds. -/
def Part.texts (part : Part) : Option (List Char × List Char) :=
  part.bounds.map fun b => (b.1.val, b.2.val)

/-- The bits of the word that an item names; none where the diagram has no such field or the
field no such bits. -/
def Item.slice (fields : List DiagramField) (item : Item) : Option Field :=
  (lookupField fields item.name.val).bind fun parent =>
    match item.part.bounds with
    | none => some parent.field
    | some (high, low) =>
        if low.number ≤ high.number ∧ high.number < parent.size then
          some ⟨parent.pos + low.number, high.number - low.number + 1⟩
        else none

/-! ## The scanner reads expressions back -/

theorem takeWhile_append_of_head {p : Char → Bool} {xs ys : List Char} (hxs : ∀ c ∈ xs, p c = true)
    (hys : ∀ c ∈ ys.head?, p c = false) :
    (xs ++ ys).takeWhile p = xs ∧ (xs ++ ys).dropWhile p = ys := by
  have hstop : ys.takeWhile p = [] ∧ ys.dropWhile p = ys := by
    cases ys with
    | nil => exact ⟨rfl, rfl⟩
    | cons c ys =>
        have hc := hys c rfl
        simp [hc]
  rw [List.takeWhile_append_of_pos hxs, List.dropWhile_append_of_pos hxs, hstop.1, hstop.2,
    List.append_nil]
  exact ⟨rfl, rfl⟩

theorem isWord_not_whitespace {c : Char} (h : isWord c = true) : c.isWhitespace = false := by
  rw [Bool.eq_false_iff]
  intro hspace
  simp only [Char.isWhitespace, Bool.or_eq_true, decide_eq_true_eq] at hspace
  rcases hspace with ((rfl | rfl) | rfl) | rfl <;> exact absurd h (by decide)

/-- What may follow a name: neither a word character nor white space. -/
def Ends (rest : List Char) : Prop :=
  ∀ c ∈ rest.head?, isWord c = false ∧ c.isWhitespace = false

theorem scanName_append (name : Name) {rest : List Char} (h : Ends rest) :
    scanName (name.val ++ rest) = some (name.val, rest) := by
  obtain ⟨cs, hne, hword⟩ := name
  obtain ⟨c, cs, rfl⟩ := List.exists_cons_of_ne_nil hne
  have hskip : ((c :: cs) ++ rest).dropWhile Char.isWhitespace = (c :: cs) ++ rest := by
    rw [List.cons_append, List.dropWhile_cons_of_neg]
    simp [isWord_not_whitespace (hword c List.mem_cons_self)]
  have hrest : rest.dropWhile Char.isWhitespace = rest :=
    (takeWhile_append_of_head (List.forall_mem_nil _) fun c hc => (h c hc).2).2
  obtain ⟨htake, hdrop⟩ := takeWhile_append_of_head hword fun c hc => (h c hc).1
  simp only [scanName, hskip, htake, hdrop, hrest]

theorem scanNumber_append (n : Numeral) (rest : List Char)
    (h : ∀ c ∈ rest.head?, c.isDigit = false) :
    scanNumber (n.val ++ rest) = some (n.val, rest) := by
  obtain ⟨ds, hds⟩ := n
  obtain ⟨d, ds, rfl⟩ := List.exists_cons_of_ne_nil hds.ne_nil
  obtain ⟨htake, hdrop⟩ := takeWhile_append_of_head hds.digits h
  simp only [scanNumber, htake, hdrop]

/-- The part behind a name is read back. -/
theorem scanSlice_append (part : Part) {rest : List Char} (h : rest.head? ≠ some '<') :
    ((scanSlice (part.text ++ rest)).map Prod.snd).getD (part.text ++ rest) = rest ∧
      (scanSlice (part.text ++ rest)).map Prod.fst = part.texts := by
  cases part with
  | whole =>
      have hnone : scanSlice rest = none := by
        cases rest with
        | nil => rfl
        | cons c rest =>
            unfold scanSlice
            split
            · simp_all
            · rfl
      simp [Part.text, Part.texts, Part.bounds, hnone]
  | bit n =>
      have hn := scanNumber_append n ('>' :: rest) (by simp)
      simp [Part.text, Part.texts, Part.bounds, scanSlice, hn]
  | range high low =>
      have hhigh := scanNumber_append high (':' :: low.val ++ '>' :: rest) (by simp)
      have hlow := scanNumber_append low ('>' :: rest) (by simp)
      simp at hhigh hlow
      simp [Part.text, Part.texts, Part.bounds, scanSlice, hhigh, hlow]

/-- The item that the scanner makes of an item of the expression. -/
def Item.encoded (fields : List DiagramField) (item : Item) : Option EncodedItem :=
  (lookupField fields item.name.val).map fun parent => encodedItem parent item.part.texts

theorem Part.ends_text (part : Part) {rest : List Char} (h : Ends rest) :
    Ends (part.text ++ rest) := by
  cases part with
  | whole => exact h
  | bit n =>
      rintro c ⟨⟩
      decide
  | range high low =>
      rintro c ⟨⟩
      decide

/-- One pass of the scanner. -/
theorem scanItems_succ (fields : List DiagramField) (fuel : Nat) (item : Item) (rest : List Char)
    (hends : Ends rest) (hslice : rest.head? ≠ some '<') :
    scanItems fields (fuel + 1) (item.text ++ rest) =
      (item.encoded fields).bind fun e =>
        if rest.head? = some ':' then (scanItems fields fuel rest.tail).map (e :: ·)
        else some [e] := by
  obtain ⟨hrest, htexts⟩ := scanSlice_append item.part hslice
  rw [Item.text, List.append_assoc, scanItems, scanName_append item.name (item.part.ends_text hends)]
  simp only [hrest, htexts, Item.encoded]
  cases lookupField fields item.name.val with
  | none => rfl
  | some parent =>
      simp only [Option.map_some, Option.bind_some]
      cases rest with
      | nil => rfl
      | cons c rest =>
          by_cases hc : c = ':'
          · subst hc
            simp
          · simp [hc]

/-- The scanner reads the items of an expression. -/
theorem scanItems_exprText (fields : List DiagramField) (items : List Item) (fuel : Nat)
    (h : items.length ≤ fuel) :
    scanItems fields fuel (exprText items) = items.mapM (Item.encoded fields) := by
  induction items generalizing fuel with
  | nil =>
      cases fuel with
      | zero => rfl
      | succ fuel => rfl
  | cons item items ih =>
      obtain ⟨fuel, rfl⟩ : ∃ n, fuel = n + 1 := ⟨fuel - 1, by simp at h; omega⟩
      cases items with
      | nil =>
          have hstep := scanItems_succ fields fuel item [] (by simp [Ends]) (by simp)
          rw [List.append_nil] at hstep
          rw [exprText, hstep, List.mapM_cons, List.mapM_nil]
          cases item.encoded fields <;> rfl
      | cons next items =>
          have hstep := scanItems_succ fields fuel item (':' :: exprText (next :: items))
            (by rintro c ⟨⟩; decide) (by simp)
          rw [exprText, hstep, List.mapM_cons, List.tail_cons,
            ih fuel (by simp at h ⊢; omega)]
          · cases item.encoded fields with
            | none => rfl
            | some e => cases List.mapM (Item.encoded fields) (next :: items) <;> rfl
          · simp

/-! ## The masks read the slices -/

/-- A diagram whose fields are disjoint parts of the instruction word. -/
structure InstructionDiagram where
  fields : List DiagramField
  size_pos : ∀ f ∈ fields, 0 < f.size
  fits : ∀ f ∈ fields, f.pos + f.size ≤ 32
  apart : fields.Pairwise fun f g => f.field.Apart g.field

/-- Two fields at different positions: the one at the lower position ends below the other. -/
theorem InstructionDiagram.below (d : InstructionDiagram) {f g : DiagramField} (hf : f ∈ d.fields)
    (hg : g ∈ d.fields) (h : f.pos < g.pos) : f.pos + f.size ≤ g.pos := by
  have : Std.Symm fun f g : DiagramField => f.field.Apart g.field := ⟨fun _ _ => Or.symm⟩
  have hne : f ≠ g := by
    rintro rfl
    exact Nat.lt_irrefl _ h
  rcases d.apart.forall hf hg hne with hle | hle
  · exact hle
  · have := d.size_pos g hg
    simp only [DiagramField.field] at hle
    omega

/-- An item of the list holds the bits of a slice of a field. -/
structure Describes (d : InstructionDiagram) (e : EncodedItem) (f : Field)
    (parent : DiagramField) : Prop where
  mem : parent ∈ d.fields
  pos : e.pos = parent.pos
  size : e.size = f.width
  mask : e.mask = f.mask
  width_pos : 0 < f.width
  low : parent.pos ≤ f.pos
  high : f.pos + f.width ≤ parent.pos + parent.size

/-- Between numerals the operator `..` counts their numbers. -/
theorem getMaskFromTexts_eq (low high : Numeral) :
    getMaskFromTexts low.val high.val = getMaskFromRange low.number high.number := by
  rw [getMaskFromTexts, low.property.range_eq high.property, List.range'_eq_map_range,
    List.foldl_map, getMaskFromRange]
  rfl

/-- A low bound with leading zeros that is longer than the high bound asks for no bit, although the
item has the size of its numbers. -/
theorem getMaskFromTexts_of_longer {low high : List Char} (hzero : low.head? = some '0')
    (h : high.length < low.length) : getMaskFromTexts low high = 0 := by
  rw [getMaskFromTexts, range_of_longer hzero h, List.foldl_nil]

example : parseEncodedin [⟨['V', 'm'], 0, 4, []⟩] ['V', 'm', '<', '3', ':', '0', '0', '>'] =
    [⟨0, 4⟩, ⟨0, 0⟩] := by
  decide

theorem mask_shiftLeft (low width pos : Nat) (h : 0 < width) :
    getMaskFromRange low (low + width - 1) <<< pos = Field.mask ⟨pos + low, width⟩ := by
  have hmask := getMaskFromRange_eq ⟨low, width⟩ h
  simp only at hmask
  rw [hmask, Field.mask, Field.mask, ← Nat.shiftLeft_add, Nat.add_comm low]

theorem Item.describes {d : InstructionDiagram} {item : Item} {f : Field}
    (h : item.slice d.fields = some f) :
    ∃ e parent, item.encoded d.fields = some e ∧ Describes d e f parent := by
  unfold Item.slice at h
  obtain ⟨parent, hparent, hf⟩ := Option.bind_eq_some_iff.mp h
  have hmem : parent ∈ d.fields := by
    have := List.mem_of_find?_eq_some hparent
    rwa [List.mem_reverse] at this
  have hsize := d.size_pos parent hmem
  refine ⟨encodedItem parent item.part.texts, parent, by rw [Item.encoded, hparent]; rfl, ?_⟩
  rw [Part.texts]
  cases hbounds : item.part.bounds with
  | none =>
      rw [hbounds] at hf
      cases hf
      have hmask : getMaskOfSize parent.size <<< parent.pos = parent.field.mask := by
        rw [getMaskOfSize_eq]
        rfl
      exact ⟨hmem, rfl, rfl, hmask, hsize, Nat.le_refl _, Nat.le_refl _⟩
  | some bounds =>
      obtain ⟨high, low⟩ := bounds
      rw [hbounds] at hf
      simp only [Option.ite_none_right_eq_some, Option.some.injEq] at hf
      obtain ⟨⟨hle, hlt⟩, rfl⟩ := hf
      have hmask := mask_shiftLeft low.number (high.number - low.number + 1) parent.pos
        (Nat.succ_pos _)
      rw [show low.number + (high.number - low.number + 1) - 1 = high.number by omega,
        ← getMaskFromTexts_eq] at hmask
      refine ⟨hmem, rfl, ?_, hmask, Nat.succ_pos _, by simp, by simp; omega⟩
      simp only [Option.map_some, encodedItem]
      change (if high.number = low.number then (1 : Int) else (high.number : Int) - low.number + 1) =
        (high.number - low.number + 1 : Nat)
      split <;> omega

/-- What the variables of the merge loop hold: slices that are read one behind another, none
below the last position. -/
structure MergeGroup.Holds (d : InstructionDiagram) (g : MergeGroup) (fs : List Field) : Prop where
  parent : ∃ f ∈ d.fields, f.pos = g.pos
  sz : g.sz = totalWidth fs
  width_pos : 0 < totalWidth fs
  lt : g.mask < 2 ^ 32
  low : ∀ i, g.mask.testBit i = true → g.pos ≤ i
  reads : ∀ w, gather 32 g.mask w = concat fs w

theorem MergeGroup.Holds.start {d : InstructionDiagram} {e : EncodedItem} {f : Field}
    {parent : DiagramField} (h : Describes d e f parent) : (MergeGroup.start e).Holds d [f] := by
  have hfits := d.fits parent h.mem
  have hhigh := h.high
  have hfit : f.pos + f.width ≤ 32 := by omega
  have hbits : ∀ i, f.mask.testBit i = true → f.pos ≤ i ∧ i < f.pos + f.width := by
    intro i hi
    simpa only [Field.testBit_mask, Bool.and_eq_true, decide_eq_true_eq] using hi
  refine ⟨⟨parent, h.mem, h.pos.symm⟩, ?_, ?_, ?_, fun i hi => ?_, fun w => ?_⟩
  · simp [MergeGroup.start, h.size, totalWidth]
  · simpa [totalWidth] using h.width_pos
  · rw [MergeGroup.start, h.mask]
    apply Nat.lt_pow_two_of_testBit
    intro i hi
    rw [Bool.eq_false_iff]
    intro hbit
    have := hbits i hbit
    omega
  · rw [MergeGroup.start, h.mask] at hi
    rw [MergeGroup.start, h.pos]
    exact Nat.le_trans h.low (hbits i hi).1
  · rw [MergeGroup.start, h.mask, gather_mask hfit]
    simp [concat]

/-- A slice of a field further down is read behind the others. -/
theorem MergeGroup.Holds.merge {d : InstructionDiagram} {g : MergeGroup} {fs : List Field}
    (hg : g.Holds d fs) {e : EncodedItem} {f : Field} {parent : DiagramField}
    (h : Describes d e f parent) (hlt : e.pos < g.pos) :
    (MergeGroup.mk e.pos (g.mask ||| e.mask) (g.sz + e.size)).Holds d (fs ++ [f]) := by
  obtain ⟨top, htop, hpos⟩ := hg.parent
  have hbelow : parent.pos + parent.size ≤ top.pos :=
    d.below h.mem htop (by rw [hpos, ← h.pos]; exact hlt)
  have hhigh := h.high
  have hfits := d.fits parent h.mem
  have hf : f.Below g.mask := by
    intro i hi
    have := hg.low i hi
    omega
  have hone := MergeGroup.Holds.start h
  refine ⟨hone.parent, ?_, ?_, ?_, fun i hi => ?_, fun w => ?_⟩
  · rw [totalWidth_append, hg.sz, h.size]
    simp [totalWidth]
  · rw [totalWidth_append]
    have := hg.width_pos
    omega
  · exact Nat.or_lt_two_pow hg.lt hone.lt
  · rw [Nat.testBit_or, Bool.or_eq_true] at hi
    rcases hi with hi | hi
    · have := hg.low i hi
      show e.pos ≤ i
      omega
    · exact hone.low i hi
  · rw [h.mask, gather_or_mask hf (by omega), hg.reads, concat_append_singleton]

/-- A finished mask is a piece that reads its slices. -/
theorem MergeGroup.Holds.readsFields {d : InstructionDiagram} {g : MergeGroup} {fs : List Field}
    (h : g.Holds d fs) (hwidth : totalWidth fs ≤ 32) : ReadsFields (maskToC (g.mask, g.sz)) fs := by
  have hpos := h.width_pos
  have hsize : (maskToC (g.mask, g.sz)).size = totalWidth fs := by
    show (g.sz % 256).toNat = totalWidth fs
    rw [h.sz]
    omega
  refine ⟨by rw [hsize]; exact hpos, hsize, fun w => ?_⟩
  rw [maskToC, BitVec.toNat_ofNat, Nat.mod_eq_of_lt h.lt, h.reads]

/-- The merge loop keeps the slices in their order. -/
theorem mergeItems_reads {d : InstructionDiagram} {items : List EncodedItem} {slices : List Field}
    (h : List.Forall₂ (fun e f => ∃ parent, Describes d e f parent) items slices)
    {g : MergeGroup} {fs : List Field} (hg : g.Holds d fs)
    (hwidth : totalWidth (fs ++ slices) ≤ 32) :
    ∃ groups, List.Forall₂ ReadsFields ((mergeItems (some g) items).map maskToC) groups ∧
      groups.flatten = fs ++ slices := by
  induction h generalizing g fs with
  | nil =>
      rw [List.append_nil] at hwidth
      exact ⟨[fs], .cons (hg.readsFields hwidth) .nil, by simp⟩
  | @cons e f items slices hef _ ih =>
      obtain ⟨parent, hdesc⟩ := hef
      rw [mergeItems]
      split
      · rename_i hlt
        obtain ⟨groups, hgroups, hflat⟩ := ih (hg.merge hdesc hlt) (by simpa using hwidth)
        exact ⟨groups, hgroups, by simpa using hflat⟩
      · rw [totalWidth_append] at hwidth
        obtain ⟨groups, hgroups, hflat⟩ := ih (.start hdesc) (by simp at hwidth ⊢; omega)
        exact ⟨fs :: groups, .cons (hg.readsFields (by omega)) hgroups, by simp [hflat]⟩

theorem items_describe {d : InstructionDiagram} {items : List Item} {slices : List Field}
    (h : items.mapM (Item.slice d.fields) = some slices) :
    ∃ es, items.mapM (Item.encoded d.fields) = some es ∧
      List.Forall₂ (fun e f => ∃ parent, Describes d e f parent) es slices := by
  induction items generalizing slices with
  | nil =>
      cases h
      exact ⟨[], rfl, .nil⟩
  | cons item items ih =>
      rw [List.mapM_cons] at h
      obtain ⟨f, hf, h⟩ := Option.bind_eq_some_iff.mp h
      obtain ⟨fs, hfs, h⟩ := Option.bind_eq_some_iff.mp h
      cases h
      obtain ⟨e, parent, he, hdesc⟩ := Item.describes hf
      obtain ⟨es, hes, hall⟩ := ih hfs
      refine ⟨e :: es, ?_, .cons ⟨parent, hdesc⟩ hall⟩
      rw [List.mapM_cons, he, hes]
      rfl

theorem length_le_exprText (items : List Item) : items.length ≤ (exprText items).length := by
  induction items with
  | nil => exact Nat.le_refl _
  | cons item items ih =>
      have hname := List.length_pos_of_ne_nil item.name.property.1
      have hpos : 0 < item.text.length := by
        rw [Item.text, List.length_append]
        omega
      cases items with
      | nil => exact hpos
      | cons next items =>
          rw [exprText, List.length_append, List.length_cons, List.length_cons]
          · exact Nat.le_trans (Nat.succ_le_succ ih) (Nat.le_add_left _ _)
          · simp

/-- The masks of an expression take the slices that it names in groups, in their order. -/
theorem parseEncodedin_exprText (d : InstructionDiagram) {items : List Item} {slices : List Field}
    (hslices : items.mapM (Item.slice d.fields) = some slices) (hwidth : totalWidth slices ≤ 32) :
    ∃ pieces groups, parseEncodedin d.fields (exprText items) = pieces ++ [⟨0, 0⟩] ∧
      List.Forall₂ ReadsFields pieces groups ∧ groups.flatten = slices := by
  obtain ⟨es, hes, hall⟩ := items_describe hslices
  have hscan : parseEncodedin d.fields (exprText items) =
      (mergeItems none es).map maskToC ++ [⟨0, 0⟩] := by
    rw [parseEncodedin, scanItems_exprText _ _ _ (length_le_exprText items), hes, Option.getD_some,
      List.map_append]
    rfl
  have hgroups : ∃ groups, List.Forall₂ ReadsFields ((mergeItems none es).map maskToC) groups ∧
      groups.flatten = slices := by
    cases hall with
    | nil => exact ⟨[], .nil, rfl⟩
    | cons hef hall =>
        obtain ⟨parent, hdesc⟩ := hef
        exact mergeItems_reads hall (.start hdesc) hwidth
  obtain ⟨groups, hreads, hflatten⟩ := hgroups
  exact ⟨_, groups, hscan, hreads, hflatten⟩

example : parseEncodedin [⟨['D'], 22, 1, []⟩, ⟨['V', 'd'], 12, 4, []⟩]
    ['V', 'd', '<', '2', ':', '0', '>', ':', 'D'] = [⟨0x7000, 3⟩, ⟨0x400000, 1⟩, ⟨0, 0⟩] := by
  decide

/-- The decoders read the concatenation of the slices that an expression names, and its
width. -/
theorem readEncodedinValue_parseEncodedin (d : InstructionDiagram) (items : List Item)
    (slices : List Field) (hslices : items.mapM (Item.slice d.fields) = some slices)
    (hwidth : totalWidth slices ≤ 32) (opcode : BitVec 32) :
    (readEncodedinValue (parseEncodedin d.fields (exprText items)) opcode).1.toNat =
        concat slices opcode.toNat ∧
      (readEncodedinValue (parseEncodedin d.fields (exprText items)) opcode).2 =
        totalWidth slices := by
  obtain ⟨pieces, groups, hrow, hreads, rfl⟩ := parseEncodedin_exprText d hslices hwidth
  have hread := readPieces_eq hreads [] opcode [] (by simpa [totalWidth] using hwidth) 0 rfl
  rw [hrow, readEncodedinValue]
  simpa [totalWidth] using hread

/-- The fields `M` and `Vm` of a vector instruction. -/
def vmDiagram : InstructionDiagram where
  fields := [⟨['M'], 5, 1, []⟩, ⟨['V', 'm'], 0, 4, []⟩]
  size_pos := by decide
  fits := by decide
  apart := by
    simp [DiagramField.field, Field.Apart]

/-- `M:Vm<2:0>` -/
def vmItems : List Item :=
  [⟨⟨['M'], by simp [isWord]⟩, .whole⟩,
    ⟨⟨['V', 'm'], by simp [isWord]⟩,
      .range ⟨['2'], by constructor <;> simp⟩ ⟨['0'], by constructor <;> simp⟩⟩]

theorem readEncodedinValue_vm :
    (readEncodedinValue (parseEncodedin vmDiagram.fields (exprText vmItems)) 0x2b).1.toNat =
        concat [⟨5, 1⟩, ⟨0, 3⟩] 0x2b ∧
      (readEncodedinValue (parseEncodedin vmDiagram.fields (exprText vmItems)) 0x2b).2 =
        totalWidth [⟨5, 1⟩, ⟨0, 3⟩] :=
  readEncodedinValue_parseEncodedin vmDiagram vmItems [⟨5, 1⟩, ⟨0, 3⟩] (by decide) (by decide) 0x2b

end Amed.Generator
