import Amed.Generator.Encodedin
import Mathlib.Data.List.Forall2
import Mathlib.Data.List.Nodup

/-!
# Constraints of a diagram

`process_constraints` reads conditions such as `Rn:size!=0b11x0` and turns each into a mask and a
value.

## Implementation notes

`%fields` holds the last field of a name. Where a pattern is too short for a field, `$1` is the last
bit that the loop over the field has read, and the names where it has read none: a match in the loop
is forgotten with the loop. A Perl number is a plain number here.
-/

namespace Amed.Generator

/-! ## The texts -/

/-- `split`: empty parts at the end are dropped. -/
def splitNames (names : List Char) : List (List Char) :=
  ((names.splitOn ':').reverse.dropWhile List.isEmpty).reverse

/-- `/(\S+)/g` -/
def scanWords (text : List Char) : List (List Char) :=
  (text.splitOnP Char.isWhitespace).filter fun word => !word.isEmpty

/-- `/^([^!=]+)!=0b([01x]+)$/`: the names and the pattern. -/
def matchConstraint (text : List Char) : Option (List Char × List Char) :=
  let inNames (c : Char) : Bool := c ≠ '!' && c ≠ '='
  match text.takeWhile inNames, text.dropWhile inNames with
  | [], _ => none
  | names, '!' :: '=' :: '0' :: 'b' :: c :: values =>
      if (c :: values).all (['0', '1', 'x'].contains ·) then some (names, c :: values) else none
  | _, _ => none

/-! ## One constraint -/

/-- The loop over the bits of a field: the texts taken and the rest of the pattern; `last` is
`$1`. -/
def takeBits (last : List Char) : Nat → List Char → List (List Char) × List Char
  | 0, values => ([], values)
  | size + 1, [] => (last :: (takeBits last size []).1, [])
  | size + 1, c :: values => ([c] :: (takeBits [c] size values).1, (takeBits [c] size values).2)

/-- The variables `$mask` and `$cvalue`. -/
structure MaskValue where
  mask : Nat := 0
  cvalue : Nat := 0
  deriving DecidableEq, Repr

/-- The loop over the reversed bits, from position `pos` on. -/
def markBits (pos : Nat) (m : MaskValue) : List (List Char) → MaskValue
  | [] => m
  | text :: texts =>
      let m :=
        if text = ['1'] then ⟨m.mask ||| 1 <<< pos, m.cvalue ||| 1 <<< pos⟩
        else if text = ['0'] then { m with mask := m.mask ||| 1 <<< pos }
        else m
      markBits (pos + 1) m texts

/-- The loop over the names; none where there is no such field. -/
def markFields (fields : List DiagramField) (names : List Char) :
    List (List Char) → List Char → MaskValue → Option MaskValue
  | [], _, m => some m
  | name :: rest, values, m =>
      match lookupField fields name with
      | none => none
      | some field =>
          let taken := takeBits names field.size values
          markFields fields names rest taken.2 (markBits field.pos m taken.1.reverse)

/-- What a constraint is compiled to. -/
def compileConstraint (fields : List DiagramField) (text : List Char) : Option MaskValue :=
  match matchConstraint text with
  | none => none
  | some (names, values) => markFields fields names (splitNames names) values {}

/-! ## All constraints -/

/-- An entry of `@cnsts`. -/
structure ConstraintEntry where
  text : List Char
  mask : Nat
  value : Nat
  deriving DecidableEq, Repr

/-- What `process_constraints` leaves in the diagram, and what it returns. -/
structure ProcessedConstraints where
  returned : Option Nat
  tmask : Nat
  cmask : Nat
  cnsts : Option (List ConstraintEntry)
  deriving DecidableEq, Repr

/-- The loop over the patterns. -/
def processPatterns (fields : List DiagramField) :
    List (List Char) → Nat → Nat → List ConstraintEntry → ProcessedConstraints
  | [], tmask, cmask, cnsts => ⟨some 0, tmask, cmask, some cnsts⟩
  | text :: texts, tmask, cmask, cnsts =>
      match compileConstraint fields text with
      | none => ⟨none, tmask, cmask, none⟩
      | some m =>
          processPatterns fields texts (tmask ||| m.mask) (cmask ||| m.mask)
            (cnsts ++ [⟨text, m.mask, m.cvalue⟩])

/-- `process_constraints`. -/
def processConstraints (fields : List DiagramField) (mask : Nat) (cnsts : Option (List Char)) :
    ProcessedConstraints :=
  match cnsts with
  | none | some [] | some ['0'] => ⟨some 1, mask, 0, none⟩
  | some text => processPatterns fields (scanWords text) mask 0 []

/-! ## What a constraint says -/

/-- The bits of a field, from the most significant one on. -/
def DiagramField.positions (f : DiagramField) : List Nat :=
  ((List.range f.size).map (f.pos + ·)).reverse

/-- The positions of the bits of named fields. -/
def positions (named : List DiagramField) : List Nat := named.flatMap DiagramField.positions

/-- The concatenation of the named fields of a word. -/
def concatenation (named : List DiagramField) (w : Nat) : List Bool :=
  (positions named).map w.testBit

/-- A bit is what a character of a pattern asks for. -/
def Agrees (c : Char) (b : Bool) : Prop := c = 'x' ∨ c = if b then '1' else '0'

def Matches (values : List Char) (bits : List Bool) : Prop := List.Forall₂ Agrees values bits

/-- The text is a constraint over these fields, with a pattern of their total width. -/
structure Reads (fields : List DiagramField) (text : List Char) (named : List DiagramField)
    (values : List Char) : Prop where
  text : ∃ names, matchConstraint text = some (names, values) ∧
    List.Forall₂ (fun name f => lookupField fields name = some f) (splitNames names) named
  width : (named.map DiagramField.size).sum = values.length

/-- The bits of the fields with their characters. -/
def marks (named : List DiagramField) (values : List Char) : List (Nat × Char) :=
  (positions named).zip values

/-- A bit that the pattern fixes. -/
def Constrained (named : List DiagramField) (values : List Char) (k : Nat) : Prop :=
  ∃ p ∈ marks named values, p.1 = k ∧ (p.2 = '0' ∨ p.2 = '1')

/-- No bit is asked to be both 0 and 1, as a field that is named twice can be. -/
def Consistent (named : List DiagramField) (values : List Char) : Prop :=
  ∀ p ∈ marks named values, ∀ q ∈ marks named values, p.1 = q.1 → ¬(p.2 = '0' ∧ q.2 = '1')

/-! ## The loops -/

/-- One character at one position. -/
def MaskValue.mark (m : MaskValue) (p : Nat × Char) : MaskValue :=
  if p.2 = '1' then ⟨m.mask ||| 1 <<< p.1, m.cvalue ||| 1 <<< p.1⟩
  else if p.2 = '0' then { m with mask := m.mask ||| 1 <<< p.1 }
  else m

theorem testBit_one_shiftLeft (i k : Nat) : (1 <<< i).testBit k = true ↔ i = k := by
  rw [Nat.one_shiftLeft, Nat.testBit_two_pow]
  simp

theorem mark_mask (m : MaskValue) (p : Nat × Char) (k : Nat) :
    (m.mark p).mask.testBit k = true ↔
      m.mask.testBit k = true ∨ p.1 = k ∧ (p.2 = '0' ∨ p.2 = '1') := by
  unfold MaskValue.mark
  split
  · rename_i h
    rw [Nat.testBit_or, Bool.or_eq_true, testBit_one_shiftLeft]
    simp [h]
  · split
    · rename_i h
      rw [Nat.testBit_or, Bool.or_eq_true, testBit_one_shiftLeft]
      simp [h]
    · rename_i h₁ h₀
      simp [h₁, h₀]

theorem mark_cvalue (m : MaskValue) (p : Nat × Char) (k : Nat) :
    (m.mark p).cvalue.testBit k = true ↔ m.cvalue.testBit k = true ∨ p.1 = k ∧ p.2 = '1' := by
  unfold MaskValue.mark
  split
  · rename_i h
    rw [Nat.testBit_or, Bool.or_eq_true, testBit_one_shiftLeft]
    simp [h]
  · rename_i h
    split <;> simp [h]

theorem foldl_mark_mask (ps : List (Nat × Char)) (m : MaskValue) (k : Nat) :
    (ps.foldl MaskValue.mark m).mask.testBit k = true ↔
      m.mask.testBit k = true ∨ ∃ p ∈ ps, p.1 = k ∧ (p.2 = '0' ∨ p.2 = '1') := by
  induction ps generalizing m with
  | nil => simp
  | cons p ps ih => rw [List.foldl_cons, ih, mark_mask, or_assoc, List.exists_mem_cons_iff]

theorem foldl_mark_cvalue (ps : List (Nat × Char)) (m : MaskValue) (k : Nat) :
    (ps.foldl MaskValue.mark m).cvalue.testBit k = true ↔
      m.cvalue.testBit k = true ∨ ∃ p ∈ ps, p.1 = k ∧ p.2 = '1' := by
  induction ps generalizing m with
  | nil => simp
  | cons p ps ih => rw [List.foldl_cons, ih, mark_cvalue, or_assoc, List.exists_mem_cons_iff]

/-- A pattern that is long enough gives one text for each bit. -/
theorem takeBits_eq (last : List Char) {size : Nat} {values : List Char}
    (h : size ≤ values.length) :
    takeBits last size values = ((values.take size).map ([·]), values.drop size) := by
  induction size generalizing last values with
  | zero => simp [takeBits]
  | succ size ih =>
      cases values with
      | nil => simp at h
      | cons c values =>
          rw [takeBits, ih _ (by simpa using h)]
          rfl

theorem markBits_eq (cs : List Char) (pos : Nat) (m : MaskValue) :
    markBits pos m (cs.map ([·])) =
      ((List.range' pos cs.length).zip cs).foldl MaskValue.mark m := by
  induction cs generalizing pos m with
  | nil => rfl
  | cons c cs ih =>
      rw [List.map_cons, markBits, ih, List.length_cons, List.range'_succ, List.zip_cons_cons,
        List.foldl_cons]
      simp [MaskValue.mark]

/-- The bits of a field are marked from the least significant one on. -/
theorem markBits_field (f : DiagramField) {cs : List Char} (h : cs.length = f.size)
    (m : MaskValue) :
    markBits f.pos m (cs.map ([·])).reverse =
      (f.positions.zip cs).reverse.foldl MaskValue.mark m := by
  have hrange : List.range' f.pos f.size = (List.range f.size).map (f.pos + ·) :=
    List.range'_eq_map_range
  have hlength : ((List.range f.size).map (f.pos + ·)).reverse.length = cs.length := by simp [h]
  rw [← List.map_reverse, markBits_eq, List.length_reverse, h, hrange, DiagramField.positions,
    List.zip, List.reverse_zipWith hlength, List.reverse_reverse]

theorem positions_length (f : DiagramField) : f.positions.length = f.size := by
  simp [DiagramField.positions]

/-- The marks of the first field, and those of the others. -/
theorem marks_cons (f : DiagramField) (named : List DiagramField) {values : List Char}
    (h : f.size ≤ values.length) :
    marks (f :: named) values =
      f.positions.zip (values.take f.size) ++ marks named (values.drop f.size) := by
  have hlength : f.positions.length = (values.take f.size).length := by
    rw [positions_length, List.length_take, Nat.min_eq_left h]
  rw [marks, positions, List.flatMap_cons, ← positions, ← List.take_append_drop f.size values,
    List.zip_append (by simpa using hlength)]
  simp [marks]

/-- The loop marks every bit of the named fields with its character. -/
theorem markFields_eq {fields : List DiagramField} (text : List Char) {names : List (List Char)}
    {named : List DiagramField} {values : List Char} (m : MaskValue)
    (hnamed : List.Forall₂ (fun name f => lookupField fields name = some f) names named)
    (hwidth : (named.map DiagramField.size).sum = values.length) :
    ∃ m', markFields fields text names values m = some m' ∧
      (∀ k, m'.mask.testBit k = true ↔ m.mask.testBit k = true ∨ Constrained named values k) ∧
      ∀ k, m'.cvalue.testBit k = true ↔
        m.cvalue.testBit k = true ∨ ∃ p ∈ marks named values, p.1 = k ∧ p.2 = '1' := by
  induction hnamed generalizing values m with
  | nil => exact ⟨m, rfl, fun k => by simp [Constrained, marks, positions],
      fun k => by simp [marks, positions]⟩
  | @cons name f names named hlookup _ ih =>
      rw [List.map_cons, List.sum_cons] at hwidth
      have hle : f.size ≤ values.length := by omega
      have htake : (values.take f.size).length = f.size := by
        rw [List.length_take, Nat.min_eq_left hle]
      obtain ⟨m', hrun, hmask, hcvalue⟩ := @ih (values.drop f.size)
        ((f.positions.zip (values.take f.size)).reverse.foldl MaskValue.mark m)
        (by rw [List.length_drop]; omega)
      refine ⟨m', ?_, fun k => ?_, fun k => ?_⟩
      · rw [markFields, hlookup]
        dsimp only
        rw [takeBits_eq _ hle, markBits_field f htake, hrun]
      · rw [hmask, foldl_mark_mask, or_assoc, Constrained, Constrained, marks_cons f named hle]
        simp only [List.mem_reverse, List.mem_append, or_and_right, exists_or]
      · rw [hcvalue, foldl_mark_cvalue, or_assoc, marks_cons f named hle]
        simp only [List.mem_reverse, List.mem_append, or_and_right, exists_or]

/-! ## The test -/

variable {named : List DiagramField} {values : List Char}

theorem marks_of_matches (hwidth : (named.map DiagramField.size).sum = values.length) (w : Nat) :
    Matches values (concatenation named w) ↔
      ∀ p ∈ marks named values, Agrees p.2 (w.testBit p.1) := by
  have hlength : (positions named).length = values.length := by
    rw [← hwidth, positions, List.length_flatMap]
    simp only [positions_length]
  have hswap : List.Forall₂ Agrees values ((positions named).map w.testBit) ↔
      List.Forall₂ (fun i c => Agrees c (w.testBit i)) (positions named) values := by
    rw [List.forall₂_map_right_iff]
    exact ⟨List.Forall₂.flip, List.Forall₂.flip⟩
  rw [Matches, concatenation, hswap, List.forall₂_iff_zip, marks]
  constructor
  · rintro ⟨-, h⟩ ⟨i, c⟩ hp
    exact h hp
  · intro h
    exact ⟨hlength, fun hp => h _ hp⟩

/-- The characters of a pattern. -/
theorem mem_of_matchConstraint {text names values : List Char}
    (h : matchConstraint text = some (names, values)) {c : Char} (hc : c ∈ values) :
    c = '0' ∨ c = '1' ∨ c = 'x' := by
  unfold matchConstraint at h
  dsimp only at h
  split at h
  · cases h
  · split at h
    · rename_i hall
      cases h
      simpa using List.all_eq_true.mp hall c hc
    · cases h
  · cases h

/-- A mask and a value that hold the marks of a pattern test for it exactly where no bit is asked to
be both 0 and 1. -/
theorem and_mask_eq_iff (hwidth : (named.map DiagramField.size).sum = values.length)
    (hvalues : ∀ c ∈ values, c = '0' ∨ c = '1' ∨ c = 'x') {m : MaskValue}
    (hmask : ∀ k, m.mask.testBit k = true ↔ Constrained named values k)
    (hcvalue : ∀ k, m.cvalue.testBit k = true ↔ ∃ p ∈ marks named values, p.1 = k ∧ p.2 = '1') :
    (∀ w, w &&& m.mask = m.cvalue ↔ Matches values (concatenation named w)) ↔
      Consistent named values := by
  have hbits (w : Nat) : w &&& m.mask = m.cvalue ↔
      ∀ k, (w.testBit k = true ∧ m.mask.testBit k = true) ↔ m.cvalue.testBit k = true := by
    constructor
    · intro h k
      rw [← h, Nat.testBit_and, Bool.and_eq_true]
    · intro h
      apply Nat.eq_of_testBit_eq
      intro k
      rw [Nat.testBit_and, Bool.eq_iff_iff, Bool.and_eq_true]
      exact h k
  have hchar (p : Nat × Char) (hp : p ∈ marks named values) : p.2 = '0' ∨ p.2 = '1' ∨ p.2 = 'x' :=
    hvalues p.2 (List.of_mem_zip hp).2
  simp only [hbits, marks_of_matches hwidth]
  constructor
  · -- the value itself passes the test, so it has every bit that is asked for
    rintro h p hp q hq hpq ⟨h0, h1⟩
    have hwithin (k : Nat) : (m.cvalue.testBit k = true ∧ m.mask.testBit k = true) ↔
        m.cvalue.testBit k = true := by
      refine ⟨And.left, fun hk => ⟨hk, ?_⟩⟩
      obtain ⟨r, hr, hrk, hr1⟩ := (hcvalue k).mp hk
      exact (hmask k).mpr ⟨r, hr, hrk, .inr hr1⟩
    have hagree := (h m.cvalue).mp hwithin p hp
    have hset : m.cvalue.testBit p.1 = true := (hcvalue p.1).mpr ⟨q, hq, hpq.symm, h1⟩
    rw [hset, h0] at hagree
    rcases hagree with hx | h1'
    · exact absurd hx (by decide)
    · exact absurd h1' (by decide)
  · intro hconsistent w
    constructor
    · intro h p hp
      rcases hchar p hp with h0 | h1 | hx
      · have hset : m.mask.testBit p.1 = true := (hmask p.1).mpr ⟨p, hp, rfl, .inl h0⟩
        cases hw : w.testBit p.1 with
        | false => exact .inr h0
        | true =>
            obtain ⟨q, hq, hqp, hq1⟩ := (hcvalue p.1).mp ((h p.1).mp ⟨hw, hset⟩)
            exact absurd ⟨h0, hq1⟩ (hconsistent p hp q hq hqp.symm)
      · have hw := ((h p.1).mpr ((hcvalue p.1).mpr ⟨p, hp, rfl, h1⟩)).1
        rw [hw]
        exact .inr h1
      · exact .inl hx
    · intro h k
      constructor
      · rintro ⟨hw, hset⟩
        obtain ⟨p, hp, rfl, h0 | h1⟩ := (hmask k).mp hset
        · have hagree := h p hp
          rw [hw, h0] at hagree
          rcases hagree with hx | h1
          · exact absurd hx (by decide)
          · exact absurd h1 (by decide)
        · exact (hcvalue p.1).mpr ⟨p, hp, rfl, h1⟩
      · intro hset
        obtain ⟨p, hp, rfl, h1⟩ := (hcvalue k).mp hset
        have hagree := h p hp
        rw [h1] at hagree
        refine ⟨?_, (hmask p.1).mpr ⟨p, hp, rfl, .inr h1⟩⟩
        cases hw : w.testBit p.1 with
        | true => rfl
        | false =>
            rw [hw] at hagree
            rcases hagree with hx | h0
            · exact absurd hx (by decide)
            · exact absurd h0 (by decide)

/-- Different fields without a common bit are asked for each bit once. -/
theorem consistent_of_apart
    (happart : named.Pairwise fun f g => f.field.Apart g.field) : Consistent named values := by
  have hnodup : (positions named).Nodup := by
    rw [positions, List.nodup_flatMap]
    constructor
    · intro f _
      rw [DiagramField.positions, List.nodup_reverse]
      exact List.nodup_range.map fun i j h => Nat.add_left_cancel h
    · refine happart.imp fun {f g} hfg => ?_
      apply List.disjoint_left.mpr
      intro i hf hg
      simp only [DiagramField.positions, List.mem_reverse, List.mem_map, List.mem_range] at hf hg
      obtain ⟨j, hj, rfl⟩ := hf
      obtain ⟨j', hj', heq⟩ := hg
      rcases hfg with h | h <;> simp only [DiagramField.field] at h <;> omega
  rintro p hp q hq hpq ⟨h0, h1⟩
  obtain ⟨i, hi, rfl⟩ := List.mem_iff_getElem.mp hp
  obtain ⟨j, hj, rfl⟩ := List.mem_iff_getElem.mp hq
  simp only [marks, List.getElem_zip] at hpq h0 h1
  have hij : i = j := (hnodup.getElem_inj_iff).mp hpq
  subst hij
  rw [h0] at h1
  exact absurd h1 (by decide)

/-! ## The whole list -/

/-- A constraint that reads is compiled to the marks of its pattern. -/
theorem compileConstraint_eq {fields : List DiagramField} {text : List Char}
    (h : Reads fields text named values) :
    ∃ m, compileConstraint fields text = some m ∧
      (∀ k, m.mask.testBit k = true ↔ Constrained named values k) ∧
      ∀ k, m.cvalue.testBit k = true ↔ ∃ p ∈ marks named values, p.1 = k ∧ p.2 = '1' := by
  obtain ⟨names, hmatch, hnamed⟩ := h.text
  obtain ⟨m, hrun, hmask, hcvalue⟩ := markFields_eq names {} hnamed h.width
  refine ⟨m, ?_, fun k => ?_, fun k => ?_⟩
  · rw [compileConstraint, hmatch]
    exact hrun
  · simpa using hmask k
  · simpa using hcvalue k

/-- A bit that some constraint of the list fixes. -/
def ConstrainedBy (fields : List DiagramField) (texts : List (List Char)) (k : Nat) : Prop :=
  ∃ text ∈ texts, ∃ named values, Reads fields text named values ∧ Constrained named values k

/-- The mask and the value of an entry test for the pattern of its text: for every word where each
field is named once, and for all patterns exactly where no bit is asked to be both 0 and 1. -/
def Compiled (fields : List DiagramField) (text : List Char) (e : ConstraintEntry) : Prop :=
  e.text = text ∧ ∀ named values, Reads fields text named values →
    (named.Nodup →
      ∀ w, w &&& e.mask ≠ e.value ↔ ¬Matches values (concatenation named w)) ∧
    ((∀ w, w &&& e.mask ≠ e.value ↔ ¬Matches values (concatenation named w)) ↔
      Consistent named values)

theorem mem_of_lookupFields {fields : List DiagramField} {names : List (List Char)}
    (h : List.Forall₂ (fun name f => lookupField fields name = some f) names named) :
    ∀ f ∈ named, f ∈ fields := by
  induction h with
  | nil => exact fun f hf => absurd hf List.not_mem_nil
  | cons hlookup _ ih =>
      intro f hf
      rcases List.mem_cons.mp hf with rfl | hf
      · exact List.mem_reverse.mp (List.mem_of_find?_eq_some hlookup)
      · exact ih f hf

theorem compiled_of_marks {fields : List DiagramField} {text : List Char} {m : MaskValue}
    (hfields : fields.Pairwise fun f g => f.field.Apart g.field)
    (h : compileConstraint fields text = some m) : Compiled fields text ⟨text, m.mask, m.cvalue⟩ := by
  refine ⟨rfl, fun named values hreads => ?_⟩
  obtain ⟨m', hm', hmask, hcvalue⟩ := compileConstraint_eq hreads
  obtain rfl : m = m' := Option.some.inj (h.symm.trans hm')
  obtain ⟨names, hmatch, hnamed⟩ := hreads.text
  have hiff := and_mask_eq_iff hreads.width (fun c => mem_of_matchConstraint hmatch) hmask hcvalue
  have hsymm : Std.Symm fun f g : DiagramField => f.field.Apart g.field := ⟨fun _ _ h => h.symm⟩
  have hmem := mem_of_lookupFields hnamed
  have happart (hnodup : named.Nodup) : named.Pairwise fun f g => f.field.Apart g.field := by
    refine hnodup.imp_of_mem fun {f g} hf hg hne => ?_
    exact hfields.forall (hmem f hf) (hmem g hg) hne
  have hne : (∀ w, w &&& m.mask ≠ m.cvalue ↔ ¬Matches values (concatenation named w)) ↔
      ∀ w, w &&& m.mask = m.cvalue ↔ Matches values (concatenation named w) :=
    forall_congr' fun w => not_iff_not
  refine ⟨fun hnodup => hne.mpr (hiff.mpr (consistent_of_apart (happart hnodup))),
    hne.trans hiff⟩

/-- The loop over the patterns appends an entry for each of them. -/
theorem processPatterns_eq {fields : List DiagramField}
    (hfields : fields.Pairwise fun f g => f.field.Apart g.field) {texts : List (List Char)}
    (h : ∀ text ∈ texts, ∃ named values, Reads fields text named values) (tmask cmask : Nat)
    (before : List ConstraintEntry) :
    ∃ tmask' cmask' entries,
      processPatterns fields texts tmask cmask before =
        ⟨some 0, tmask', cmask', some (before ++ entries)⟩ ∧
      List.Forall₂ (Compiled fields) texts entries ∧
      (∀ k, tmask'.testBit k = true ↔ tmask.testBit k = true ∨ ConstrainedBy fields texts k) ∧
      ∀ k, cmask'.testBit k = true ↔ cmask.testBit k = true ∨ ConstrainedBy fields texts k := by
  induction texts generalizing tmask cmask before with
  | nil =>
      refine ⟨tmask, cmask, [], by rw [List.append_nil]; rfl, .nil, fun k => ?_, fun k => ?_⟩ <;>
        simp [ConstrainedBy]
  | cons text texts ih =>
      obtain ⟨named, values, hreads⟩ := h text List.mem_cons_self
      obtain ⟨m, hm, hmask, -⟩ := compileConstraint_eq hreads
      obtain ⟨tmask', cmask', entries, hrun, hentries, ht, hc⟩ :=
        ih (fun t ht => h t (List.mem_cons_of_mem _ ht)) (tmask ||| m.mask) (cmask ||| m.mask)
          (before ++ [⟨text, m.mask, m.cvalue⟩])
      have hfirst (k : Nat) : ConstrainedBy fields (text :: texts) k ↔
          m.mask.testBit k = true ∨ ConstrainedBy fields texts k := by
        have hthis : (∃ named values, Reads fields text named values ∧ Constrained named values k) ↔
            m.mask.testBit k = true := by
          constructor
          · rintro ⟨named', values', hreads', hk⟩
            obtain ⟨m', hm', hmask', -⟩ := compileConstraint_eq hreads'
            obtain rfl : m = m' := Option.some.inj (hm.symm.trans hm')
            exact (hmask' k).mpr hk
          · exact fun hk => ⟨named, values, hreads, (hmask k).mp hk⟩
        rw [ConstrainedBy, List.exists_mem_cons_iff, hthis]
        rfl
      refine ⟨tmask', cmask', ⟨text, m.mask, m.cvalue⟩ :: entries, ?_,
        .cons (compiled_of_marks hfields hm) hentries, fun k => ?_, fun k => ?_⟩
      · rw [processPatterns, hm]
        dsimp only
        rw [hrun, List.append_assoc]
        rfl
      · rw [ht, Nat.testBit_or, Bool.or_eq_true, or_assoc, hfirst]
      · rw [hc, Nat.testBit_or, Bool.or_eq_true, or_assoc, hfirst]

/-- Over a diagram of disjoint fields, `process_constraints` compiles every constraint to a mask and
a value that test for its pattern, and `tmask` and `cmask` gain exactly the bits that the patterns
fix. -/
theorem processConstraints_compiles (fields : List DiagramField) (text : List Char) (mask : Nat)
    (hfields : fields.Pairwise fun f g => f.field.Apart g.field) (htext : text ≠ [])
    (h : ∀ word ∈ scanWords text, ∃ named values, Reads fields word named values) :
    ∃ tmask cmask entries,
      processConstraints fields mask (some text) = ⟨some 0, tmask, cmask, some entries⟩ ∧
      List.Forall₂ (Compiled fields) (scanWords text) entries ∧
      (∀ k, tmask.testBit k = true ↔
        mask.testBit k = true ∨ ConstrainedBy fields (scanWords text) k) ∧
      ∀ k, cmask.testBit k = true ↔ ConstrainedBy fields (scanWords text) k := by
  have hzero : text ≠ ['0'] := by
    rintro rfl
    obtain ⟨named, values, hreads⟩ := h ['0'] (by decide)
    obtain ⟨names, hmatch, -⟩ := hreads.text
    exact absurd hmatch (by simp [matchConstraint])
  have hrun : processConstraints fields mask (some text) =
      processPatterns fields (scanWords text) mask 0 [] := by
    unfold processConstraints
    split
    · rename_i heq
      cases heq
    · rename_i heq
      exact absurd (Option.some.inj heq) htext
    · rename_i heq
      exact absurd (Option.some.inj heq) hzero
    · rename_i heq
      cases heq
      rfl
  obtain ⟨tmask, cmask, entries, heq, hentries, ht, hc⟩ := processPatterns_eq hfields h mask 0 []
  refine ⟨tmask, cmask, entries, by rw [hrun, heq, List.nil_append], hentries, ht, fun k => ?_⟩
  simpa using hc k

example : processConstraints [⟨['R', 'n'], 16, 4, []⟩, ⟨['S'], 20, 1, []⟩] 0xff000000
    (some ['S', ':', 'R', 'n', '!', '=', '0', 'b', '1', '0', 'x', '1', '1']) =
      ⟨some 0, 0xff1b0000, 0x1b0000,
        some [⟨['S', ':', 'R', 'n', '!', '=', '0', 'b', '1', '0', 'x', '1', '1'], 0x1b0000,
          0x130000⟩]⟩ := by
  decide

/-- `S:Rn!=0b10x11` over two fields. -/
theorem processConstraints_compiles_sRn :
    ∃ tmask cmask entries,
      processConstraints [⟨['R', 'n'], 16, 4, []⟩, ⟨['S'], 20, 1, []⟩] 0xff000000
        (some ['S', ':', 'R', 'n', '!', '=', '0', 'b', '1', '0', 'x', '1', '1']) =
          ⟨some 0, tmask, cmask, some entries⟩ ∧
      List.Forall₂ (Compiled [⟨['R', 'n'], 16, 4, []⟩, ⟨['S'], 20, 1, []⟩])
        [['S', ':', 'R', 'n', '!', '=', '0', 'b', '1', '0', 'x', '1', '1']] entries := by
  have hwords : scanWords ['S', ':', 'R', 'n', '!', '=', '0', 'b', '1', '0', 'x', '1', '1'] =
      [['S', ':', 'R', 'n', '!', '=', '0', 'b', '1', '0', 'x', '1', '1']] := by decide
  obtain ⟨tmask, cmask, entries, heq, hentries, -⟩ := processConstraints_compiles
    [⟨['R', 'n'], 16, 4, []⟩, ⟨['S'], 20, 1, []⟩]
    ['S', ':', 'R', 'n', '!', '=', '0', 'b', '1', '0', 'x', '1', '1'] 0xff000000
    (by simp [DiagramField.field, BitFields.Field.Apart]) (by decide) (by
      rw [hwords]
      intro word hword
      obtain rfl := List.mem_singleton.mp hword
      refine ⟨[⟨['S'], 20, 1, []⟩, ⟨['R', 'n'], 16, 4, []⟩], ['1', '0', 'x', '1', '1'],
        ⟨['S', ':', 'R', 'n'], by decide, ?_⟩, rfl⟩
      exact .cons (by decide) (.cons (by decide) .nil))
  rw [hwords] at hentries
  exact ⟨tmask, cmask, entries, heq, hentries⟩

/-- A field of one bit that is named twice and asked to be 0 and 1: no word matches, and the word 1
passes the test. -/
theorem not_compiles_namedTwice :
    ¬∀ (fields named : List DiagramField) (text values : List Char) (m : MaskValue),
      fields.Pairwise (fun f g => f.field.Apart g.field) → Reads fields text named values →
        compileConstraint fields text = some m →
          ∀ w, w &&& m.mask ≠ m.cvalue ↔ ¬Matches values (concatenation named w) := by
  intro h
  have hnamed : List.Forall₂ (fun name f => lookupField [⟨['A'], 0, 1, []⟩] name = some f)
      (splitNames ['A', ':', 'A']) [⟨['A'], 0, 1, []⟩, ⟨['A'], 0, 1, []⟩] :=
    .cons rfl (.cons rfl .nil)
  have hone := h [⟨['A'], 0, 1, []⟩] [⟨['A'], 0, 1, []⟩, ⟨['A'], 0, 1, []⟩]
    ['A', ':', 'A', '!', '=', '0', 'b', '0', '1'] ['0', '1'] ⟨1, 1⟩ (List.pairwise_singleton _ _)
    ⟨⟨['A', ':', 'A'], rfl, hnamed⟩, rfl⟩ rfl 1
  have hfails : ¬Matches ['0', '1'] (concatenation [⟨['A'], 0, 1, []⟩, ⟨['A'], 0, 1, []⟩] 1) := by
    intro hmatches
    cases hmatches with
    | cons hagrees _ =>
        rcases hagrees with hx | h0
        · exact absurd hx (by decide)
        · exact absurd h0 (by decide)
  exact hone.mpr hfails rfl

end Amed.Generator
