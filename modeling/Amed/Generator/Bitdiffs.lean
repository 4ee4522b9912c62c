import Amed.Generator.Layout
import Amed.X86.Excerpt

/-!
# The bit differences of a template

The rows of the bit difference table are the pairs of the templates' own fields. The decoder
clears the feature bits of the word it compares, but not those of the row.
-/

namespace Amed.Generator

open BitFields X86

/-- The row `process_template` writes for a template. -/
def bitdiffOf (f : SymbolicFields) : X86.DbBitdiff :=
  ⟨BitVec.ofNat 32 (getOpcodes f).1, BitVec.ofNat 32 (getOpcodes f).2⟩

theorem settings_range (f : SymbolicFields) :
    ∀ s ∈ f.settings, s.field.pos + s.field.width ≤ 32 := by
  intro s hs
  obtain ⟨k, -, hk⟩ := List.mem_filterMap.mp hs
  obtain ⟨v, -, rfl⟩ := Option.map_eq_some_iff.mp hk
  have hall : ∀ k ∈ keys, (fldinfo k).pos + (fldinfo k).width ≤ 32 := by decide
  exact hall k (mem_keys k)

/-- The comparison of `decode_template`, on the numbers of the row. -/
theorem bitdiffFails_iff {db : Db} {t : DbTemplate} {f : SymbolicFields}
    (hrow : db.bitdiffs t.bitdiffs = bitdiffOf f) (d : Diagram) :
    bitdiffFails db t d = false ↔
      (d.hashcode.toNat &&& notFeatureMask.toNat) &&& (getOpcodes f).2 = (getOpcodes f).1 := by
  have hmask : (getOpcodes f).2 < 2 ^ 32 := by
    rw [getOpcodes_eq]
    exact maskOf_lt (settings_range f)
  have hvalue : (getOpcodes f).1 < 2 ^ 32 := by
    rw [getOpcodes_eq]
    exact valueOf_lt (settings_fits f) (settings_range f)
  have hword : (d.hashcode &&& BitVec.ofNat 32 (getOpcodes f).2 &&& notFeatureMask).toNat =
      d.hashcode.toNat &&& notFeatureMask.toNat &&& (getOpcodes f).2 := by
    rw [BitVec.toNat_and, BitVec.toNat_and, BitVec.toNat_ofNat, Nat.mod_eq_of_lt hmask,
      Nat.and_right_comm]
  have hopcode : (BitVec.ofNat 32 (getOpcodes f).1).toNat = (getOpcodes f).1 := by
    rw [BitVec.toNat_ofNat, Nat.mod_eq_of_lt hvalue]
  rw [← hword, ← hopcode, BitVec.toNat_inj]
  unfold bitdiffFails
  rw [decide_eq_false_iff_not, not_not, hrow]
  rfl

/-- Clearing the feature bits leaves the other keys. -/
theorem get_notFeatureMask (w : Nat) (k : Key) (hk : ∀ i, k ≠ .feature i) :
    (fldinfo k).get (w &&& notFeatureMask.toNat) = (fldinfo k).get w := by
  have hones : (fldinfo k).get notFeatureMask.toNat = 2 ^ (fldinfo k).width - 1 := by
    cases k with
    | feature i => exact absurd rfl (hk i)
    | _ => decide
  rw [Field.get_and, hones, Nat.and_two_pow_sub_one_eq_mod, Nat.mod_eq_of_lt (Field.get_lt _ _)]

/-- No feature is left. -/
theorem get_notFeatureMask_feature (w : Nat) (i : Feature) :
    (fldinfo (.feature i)).get (w &&& notFeatureMask.toNat) = 0 := by
  have hzero : (fldinfo (.feature i)).get notFeatureMask.toNat = 0 := by
    cases i <;> decide
  rw [Field.get_and, hzero, Nat.and_zero]

/-- The decoder's test, on the fields of the template. -/
theorem bitdiffFails_hashSizes_iff {db : Db} {t : DbTemplate} {f : SymbolicFields}
    (hrow : db.bitdiffs t.bitdiffs = bitdiffOf f) {d : Diagram} (h : Assembled d) :
    bitdiffFails db t d.hashSizes = false ↔
      OthersMet f d ∧ d.enc = (f.enc.getD .none).code ∧ OszTested f d ∧ VlTested f d ∧
        ∀ i, f.feature i ≠ some true := by
  rw [bitdiffFails_iff hrow, and_getOpcodes_iff_of_get f h fun k hk => by
    rw [get_notFeatureMask _ k hk, fldinfo_get_hashcode h.fieldsFit]]
  have hfeat : (∀ i v, f.feature i = some v →
      (fldinfo (.feature i)).get (d.hashSizes.hashcode.toNat &&& notFeatureMask.toNat) = v.toNat) ↔
        ∀ i, f.feature i ≠ some true := by
    simp only [get_notFeatureMask_feature]
    constructor
    · intro hall i hi
      exact absurd (hall i true hi) (by decide)
    · intro hnot i v hv
      cases v with
      | false => rfl
      | true => exact absurd hv (hnot i)
  rw [hfeat]

/-! ## Unpredictable encodings -/

/-- The constraints that a record states, besides those on the features. A record without
`ENC` states none on the encoding. -/
structure Stated (f : SymbolicFields) (d : Diagram) : Prop where
  others : OthersMet f d
  enc : ∀ e, f.enc = some e → d.enc = e.code
  osz : OszMet f d
  vl : VlMet f d

/-- The flag agrees with the constraints of encoding `fe` and template `ft`. -/
structure FlagAgrees (db : Db) (t : DbTemplate) (fe ft : SymbolicFields) (d : Diagram) : Prop where
  quiet : Stated fe d → FeaturesMet fe d → Stated ft d → FeaturesMet ft d →
    bitdiffFails db t d.hashSizes = false
  exact : bitdiffFails db t d.hashSizes = true ↔ ¬Stated ft d

/-- The test flags a diagram that meets what the template states: a feature that is asked
for is compared with a cleared bit, `ENC` defaults to `none`, a combined operand size class
refuses 32. -/
def Misflagged (f : SymbolicFields) (d : Diagram) : Prop :=
  Stated f d ∧
    ((∃ i, f.feature i = some true) ∨ (f.enc = none ∧ d.enc ≠ encodingNone) ∨
      ((f.osz = some .z ∨ f.osz = some .y) ∧ operandSize d = some 1))

/-- The test passes a legacy instruction although the template asks for a vector length. -/
def Missed (f : SymbolicFields) (d : Diagram) : Prop :=
  OthersMet f d ∧ d.enc = (f.enc.getD .none).code ∧ OszTested f d ∧ VlTested f d ∧
    (∀ i, f.feature i ≠ some true) ∧ f.vl.isSome ∧ d.enc = encodingNone

/-- The bit differences flag what the template's constraints rule out, apart from the
diagrams they misflag or miss. -/
theorem flagAgrees_iff {db : Db} {t : DbTemplate} (fe : SymbolicFields) {ft : SymbolicFields}
    (hrow : db.bitdiffs t.bitdiffs = bitdiffOf ft) {d : Diagram} (h : Assembled d) :
    FlagAgrees db t fe ft d ↔ ¬Misflagged ft d ∧ ¬Missed ft d := by
  have htest := bitdiffFails_hashSizes_iff hrow h
  have hosz := oszTested_iff ft d
  have hvl := vlTested_iff ft h
  constructor
  · rintro ⟨-, hexact⟩
    constructor
    · rintro ⟨hstated, hwrong⟩
      have hpass : bitdiffFails db t d.hashSizes = false := by
        rw [Bool.eq_false_iff]
        exact fun hfail => hexact.mp hfail hstated
      obtain ⟨-, henc, hosz', -, hfeat⟩ := htest.mp hpass
      rcases hwrong with ⟨i, hi⟩ | ⟨hnone, hd⟩ | hclass
      · exact hfeat i hi
      · rw [hnone] at henc
        exact hd henc
      · exact (hosz.mp hosz').2 hclass
    · rintro ⟨hothers, henc, hosz', hvl', hfeat, hsome, hnone⟩
      have hpass := htest.mpr ⟨hothers, henc, hosz', hvl', hfeat⟩
      have hfail := hexact.mpr fun hstated => (hvl.mp hstated.vl).2 hsome hnone
      rw [hpass] at hfail
      cases hfail
  · rintro ⟨hmisflagged, hmissed⟩
    have hexact : bitdiffFails db t d.hashSizes = false ↔ Stated ft d := by
      constructor
      · intro hpass
        obtain ⟨hothers, henc, hosz', hvl', hfeat⟩ := htest.mp hpass
        refine ⟨hothers, fun e he => by rw [henc, he]; rfl, (hosz.mp hosz').1,
          hvl.mpr ⟨hvl', fun hsome hnone => ?_⟩⟩
        exact hmissed ⟨hothers, henc, hosz', hvl', hfeat, hsome, hnone⟩
      · intro hstated
        refine htest.mpr ⟨hstated.others, ?_, hosz.mpr ⟨hstated.osz, fun hclass => ?_⟩,
          (hvl.mp hstated.vl).1, fun i hi => ?_⟩
        · cases he : ft.enc with
          | none =>
              by_contra hd
              exact hmisflagged ⟨hstated, Or.inr (Or.inl ⟨he, hd⟩)⟩
          | some e => exact hstated.enc e he
        · exact hmisflagged ⟨hstated, Or.inr (Or.inr hclass)⟩
        · exact hmisflagged ⟨hstated, Or.inl ⟨i, hi⟩⟩
    constructor
    · intro _ _ hstated _
      exact hexact.mpr hstated
    · rw [← hexact, Bool.not_eq_false]

/-- The row of `ADD` with a register operand. -/
theorem excerpt_bitdiffs_add :
    Excerpt.tables.bitdiffs (Excerpt.tables.templates 33).bitdiffs =
      bitdiffOf { mod := some true } := by
  decide

theorem flagAgrees_add :
    FlagAgrees Excerpt.tables (Excerpt.tables.templates 33) {} { mod := some true } default := by
  refine (flagAgrees_iff {} excerpt_bitdiffs_add
    ⟨by decide, by decide, by decide, by decide, by decide, by decide, rfl, rfl, rfl, rfl⟩).mpr
    ⟨?_, ?_⟩
  · rintro ⟨hstated, -⟩
    cases hstated.others.mod true rfl
  · rintro ⟨hothers, -⟩
    cases hothers.mod true rfl

/-- A vector instruction is flagged under a template that only states a register operand. -/
theorem not_flagAgrees_vex :
    ¬∀ (db : Db) (t : DbTemplate) (fe ft : SymbolicFields) (d : Diagram),
      db.bitdiffs t.bitdiffs = bitdiffOf ft → Assembled d → FlagAgrees db t fe ft d := by
  intro h
  have hagree := h Excerpt.tables (Excerpt.tables.templates 33) {} { mod := some true }
    { (default : Diagram) with modreg := true, enc := 1 } excerpt_bitdiffs_add
    ⟨by decide, by decide, by decide, by decide, by decide, by decide, rfl, rfl, rfl, rfl⟩
  have hflag : bitdiffFails Excerpt.tables (Excerpt.tables.templates 33)
      ({ (default : Diagram) with modreg := true, enc := 1 }).hashSizes = true := by
    decide
  refine hagree.exact.mp hflag ⟨⟨?_, ?_, ?_, ?_, ?_, ?_, ?_, ?_, ?_, ?_, ?_⟩, ?_, ?_, ?_⟩ <;>
    simp [OszMet, VlMet]

end Amed.Generator
