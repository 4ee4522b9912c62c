import Amed.Generator.Hashcode

/-!
# The hashcode layout of generator and decoder

What the symbolic fields mean for a diagram, and where the pair of `get_opcodes` tests
something else on the hashcode the decoder puts together.
-/

namespace Amed.Generator

open BitFields X86

/-- The value a diagram has for a key. -/
def diagramValue (d : Diagram) : Key → Nat
  | .mod => d.modreg.toNat
  | .reg => d.reg
  | .cr => d.cr.toNat
  | .rm => d.rm
  | .vl => d.len
  | .yosz => d.yosz.toNat
  | .zosz => d.zosz.toNat
  | .pf2 => d.f2.toNat
  | .pf3 => d.f3.toNat
  | .p66 => d.p66.toNat
  | .fb => d.fb.toNat
  | .enc => d.enc
  | .e => d.e.toNat
  | .asz => d.asz
  | .yasz => d.yasz.toNat
  | .mode => d.longMode.toNat
  | .w => d.w.toNat
  | .feature i => (d.features.testBit i.index).toNat

/-- The bitfields of the hashcode hold what fits them. -/
structure FieldsFit (d : Diagram) : Prop where
  reg : d.reg < 8
  rm : d.rm < 8
  len : d.len < 4
  enc : d.enc < 8
  asz : d.asz < 4
  features : d.features < 128

theorem diagramValue_lt {d : Diagram} (h : FieldsFit d) (k : Key) :
    diagramValue d k < 2 ^ (fldinfo k).width := by
  cases k with
  | reg => exact h.reg
  | rm => exact h.rm
  | vl => exact h.len
  | enc => exact h.enc
  | asz => exact h.asz
  | _ => exact Bool.toNat_lt _

/-- The bitfields of the hashcode from the highest down, the features taken together. -/
def bitfields (d : Diagram) : List Setting :=
  ⟨⟨25, 7⟩, d.features⟩ ::
    [.w, .mode, .yasz, .asz, .e, .enc, .fb, .p66, .pf3, .pf2, .zosz, .yosz, .vl, .rm, .cr, .reg,
      .mod].map fun k => ⟨fldinfo k, diagramValue d k⟩

theorem bitfields_fit {d : Diagram} (h : FieldsFit d) : ∀ s ∈ bitfields d, s.Fits :=
  List.forall_mem_cons.mpr ⟨h.features, List.forall_mem_map.mpr fun k _ => diagramValue_lt h k⟩

theorem bitfields_below (d : Diagram) :
    (bitfields d).Pairwise fun s t => t.field.pos + t.field.width ≤ s.field.pos := by
  have hfields : ((bitfields d).map Setting.field).Pairwise fun f g => g.pos + g.width ≤ f.pos := by
    change [(⟨25, 7⟩ : Field), ⟨24, 1⟩, ⟨23, 1⟩, ⟨22, 1⟩, ⟨20, 2⟩, ⟨19, 1⟩, ⟨16, 3⟩, ⟨15, 1⟩, ⟨14, 1⟩,
      ⟨13, 1⟩, ⟨12, 1⟩, ⟨11, 1⟩, ⟨10, 1⟩, ⟨8, 2⟩, ⟨5, 3⟩, ⟨4, 1⟩, ⟨1, 3⟩, ⟨0, 1⟩].Pairwise _
    decide
  exact List.pairwise_map.mp hfields

/-- The hashcode is the value of its bitfields. -/
theorem hashcode_toNat {d : Diagram} (h : FieldsFit d) :
    d.hashcode.toNat = valueOf (bitfields d) := by
  have hlt : valueOf (bitfields d) < 2 ^ 32 :=
    valueOf_lt (bitfields_fit h) (by simp [bitfields, fldinfo])
  rw [← Nat.mod_eq_of_lt hlt, valueOf_eq_sum (bitfields_fit h) (bitfields_below d),
    Diagram.hashcode, BitVec.toNat_ofNat]
  simp only [bitfields, List.map_cons, List.map_nil, List.sum_cons, List.sum_nil, fldinfo,
    diagramValue]
  refine congrArg (· % 2 ^ 32) ?_
  omega

theorem get_bitfield {d : Diagram} (h : FieldsFit d) {s : Setting} (hs : s ∈ bitfields d) :
    s.field.get d.hashcode.toNat = s.value := by
  have hapart : (bitfields d).Pairwise fun s t => s.field.Apart t.field :=
    (bitfields_below d).imp fun hbelow => Or.inr hbelow
  rw [hashcode_toNat h]
  exact get_valueOf (bitfields_fit h) hapart hs

/-- Generator and decoder put every key at the same place. -/
theorem fldinfo_get_hashcode {d : Diagram} (h : FieldsFit d) (k : Key) :
    (fldinfo k).get d.hashcode.toNat = diagramValue d k := by
  cases k with
  | feature i =>
    have hfeatures : (⟨25, 7⟩ : Field).get d.hashcode.toNat = d.features :=
      get_bitfield h List.mem_cons_self
    have hi : i.index < 7 := by cases i <;> decide
    rw [diagramValue, ← hfeatures, Field.testBit_get, decide_eq_true hi, Bool.true_and,
      Nat.toNat_testBit, Nat.add_comm]
    rfl
  | _ => exact get_bitfield h (List.mem_cons_of_mem _ (List.mem_map_of_mem (by decide)))

/-! ## What the fields mean -/

/-- The operand size of a legacy instruction; a vector encoding has none. -/
def operandSize (d : Diagram) : Option Nat :=
  if d.enc = encodingNone then some (if d.w then 2 else d.osz) else none

/-- The vector length of a vector-encoded instruction. -/
def vectorLength (d : Diagram) : Option Nat := if d.enc = encodingNone then none else some d.vl

/-- The sizes a class of `OSZ` stands for. -/
def OperandSize.codes : OperandSize → List Nat
  | .s16 => [0]
  | .s32 => [1]
  | .s64 => [2]
  | .z => [0, 1]
  | .y => [1, 2]

/-- The sizes a class of `ASZ` stands for. -/
def AddressSize.codes : AddressSize → List Nat
  | .s16 => [0]
  | .s32 => [1]
  | .s64 => [2]
  | .y => [1, 2]

/-- A diagram meets the constraint on the operand size. -/
def OszMet (f : SymbolicFields) (d : Diagram) : Prop :=
  ∀ c, f.osz = some c → ∃ size ∈ operandSize d, size ∈ c.codes

/-- A diagram meets the constraint on the vector length. -/
def VlMet (f : SymbolicFields) (d : Diagram) : Prop :=
  ∀ l, f.vl = some l → vectorLength d = some l.code

/-- The meaning of a value of `REG`. -/
def RegField.Met : RegField → Nat → Prop
  | .nnn, reg => reg ≠ 0
  | .number n, reg => reg = n

/-- A diagram meets the constraints besides those on the encoding, the operand size, the
vector length and the features. -/
structure OthersMet (f : SymbolicFields) (d : Diagram) : Prop where
  mod : ∀ v, f.mod = some v → d.modreg = v
  reg : ∀ r, f.reg = some r → r.Met d.reg
  rm : ∀ n, f.rm = some n → d.rm = n
  pf2 : ∀ v, f.pf2 = some v → d.f2 = v
  pf3 : ∀ v, f.pf3 = some v → d.f3 = v
  p66 : ∀ v, f.p66 = some v → d.p66 = v
  fb : ∀ v, f.fb = some v → d.fb = v
  e : ∀ v, f.e = some v → d.e = v
  asz : ∀ c, f.asz = some c → d.asz ∈ c.codes
  mode : ∀ v, f.mode = some v → d.longMode = v
  w : ∀ v, f.w = some v → d.w = v

def FeaturesMet (f : SymbolicFields) (d : Diagram) : Prop :=
  ∀ i v, f.feature i = some v → d.features.testBit i.index = v

/-- A diagram satisfies the symbolic fields; without `ENC` they are those of a legacy
encoding. -/
structure Satisfied (f : SymbolicFields) (d : Diagram) : Prop where
  others : OthersMet f d
  enc : d.enc = (f.enc.getD .none).code
  osz : OszMet f d
  vl : VlMet f d
  features : FeaturesMet f d

/-! ## What the pair tests -/

/-- A diagram as the prefixes and the opcode fetch leave it: the bits that are put together
for the hashcode are still clear. -/
structure Assembled (d : Diagram) : Prop where
  reg : d.reg < 8
  rm : d.rm < 8
  enc : d.enc < 8
  asz : d.asz < 4
  features : d.features < 128
  vl : d.vl < 4
  cr : d.cr = decide (d.reg ≠ 0)
  yosz : d.yosz = false
  zosz : d.zosz = false
  yasz : d.yasz = false

/-- The sizes the pair accepts for a class: `z` keeps 16 and `y` keeps 64 only. -/
def OperandSize.accepted : OperandSize → List Nat
  | .s16 => [0]
  | .s32 => [1]
  | .s64 => [2]
  | .z => [0]
  | .y => [2]

def OszTested (f : SymbolicFields) (d : Diagram) : Prop :=
  ∀ c, f.osz = some c → ∃ size ∈ operandSize d, size ∈ c.accepted

/-- The pair compares the vector length with the operand size of a legacy instruction. -/
def VlTested (f : SymbolicFields) (d : Diagram) : Prop :=
  ∀ l, f.vl = some l → ((operandSize d).getD d.vl) % 4 = l.code

theorem Assembled.fieldsFit {d : Diagram} (h : Assembled d) : FieldsFit d.hashSizes := by
  obtain ⟨hreg, hrm, henc, hasz, hfeat, -⟩ := h
  unfold Diagram.hashSizes
  dsimp only
  split <;> exact ⟨hreg, hrm, Nat.mod_lt _ (by decide), henc, hasz, hfeat⟩

/-- The keys that `hashSizes` leaves alone. -/
theorem diagramValue_hashSizes (d : Diagram) (k : Key)
    (hk : k ≠ .vl ∧ k ≠ .yosz ∧ k ≠ .zosz ∧ k ≠ .yasz) :
    diagramValue d.hashSizes k = diagramValue d k := by
  unfold Diagram.hashSizes
  dsimp only
  cases k <;> first | (split <;> rfl) | simp at hk

theorem diagramValue_yasz {d : Diagram} (h : Assembled d) :
    diagramValue d.hashSizes .yasz = if d.asz = 1 ∨ d.asz = 2 then 1 else 0 := by
  have hyasz : d.hashSizes.yasz = (decide (d.asz = 1) || decide (d.asz = 2)) := by
    unfold Diagram.hashSizes
    dsimp only
    split <;> simp [h.yasz]
  rw [diagramValue, hyasz, ← Bool.decide_or]
  by_cases hasz : d.asz = 1 ∨ d.asz = 2 <;> simp [hasz]

theorem diagramValue_sizes {d : Diagram} (h : Assembled d) :
    diagramValue d.hashSizes .zosz = (if operandSize d = some 0 ∨ operandSize d = some 1 then 1 else 0)
      ∧ diagramValue d.hashSizes .yosz =
        (if operandSize d = some 1 ∨ operandSize d = some 2 then 1 else 0) ∧
      diagramValue d.hashSizes .vl = ((operandSize d).getD d.vl) % 4 := by
  unfold operandSize Diagram.hashSizes diagramValue
  by_cases henc : d.enc = encodingNone
  · simp only [henc, if_true, h.zosz, h.yosz, Bool.false_or, Option.some.injEq, Option.getD_some]
    generalize (if d.w = true then 2 else d.osz) = size
    refine ⟨?_, ?_, trivial⟩
    · rw [← Bool.decide_or]
      by_cases hsize : size = 0 ∨ size = 1 <;> simp [hsize]
    · rw [← Bool.decide_or]
      by_cases hsize : size = 1 ∨ size = 2 <;> simp [hsize]
  · simp [henc, h.zosz, h.yosz]

/-! ## The test of the pair, field by field -/

theorem forall_map_toNat (o : Option Bool) (b : Bool) :
    (∀ v, o.map Bool.toNat = some v → b.toNat = v) ↔ ∀ c, o = some c → b = c := by
  cases o with
  | none => simp
  | some c => cases b <;> cases c <;> simp

theorem reg_tested {f : SymbolicFields} {d : Diagram} (h : Assembled d) :
    (∀ r, f.reg = some r → r.Met d.reg) ↔
      (∀ v, f.value .reg = some v → d.reg = v) ∧ ∀ v, f.value .cr = some v → d.cr.toNat = v := by
  rw [h.cr]
  unfold SymbolicFields.value
  cases f.reg with
  | none => simp
  | some r =>
      cases r with
      | nnn => simp [RegField.Met]
      | number n =>
          by_cases hn : n = 0
          · subst hn
            simp [RegField.Met]
          · have hn' : (n : Nat) ≠ 0 := fun h => hn (Fin.ext h)
            simp only [RegField.Met, Option.some.injEq, forall_eq', Option.map_some,
              RegField.number.injEq, hn, if_false]
            constructor
            · intro hreg
              simp [hreg, hn']
            · exact fun h => h.1

theorem asz_tested {f : SymbolicFields} {d : Diagram} (h : Assembled d) :
    (∀ c, f.asz = some c → d.asz ∈ c.codes) ↔
      (∀ v, f.value .asz = some v → d.asz = v) ∧
        ∀ v, f.value .yasz = some v → diagramValue d.hashSizes .yasz = v := by
  rw [diagramValue_yasz h]
  have hlt := h.asz
  unfold SymbolicFields.value
  cases f.asz with
  | none => simp
  | some c => cases c <;> simp [AddressSize.codes] <;> omega

theorem osz_tested {f : SymbolicFields} {d : Diagram} (h : Assembled d) :
    OszTested f d ↔
      (∀ v, f.value .zosz = some v → diagramValue d.hashSizes .zosz = v) ∧
        ∀ v, f.value .yosz = some v → diagramValue d.hashSizes .yosz = v := by
  obtain ⟨hz, hy, -⟩ := diagramValue_sizes h
  rw [hz, hy]
  unfold OszTested SymbolicFields.value
  cases f.osz with
  | none => simp
  | some c =>
      cases operandSize d with
      | none => cases c <;> simp
      | some size => cases c <;> simp [OperandSize.accepted] <;> omega

theorem vl_tested {f : SymbolicFields} {d : Diagram} (h : Assembled d) :
    VlTested f d ↔ ∀ v, f.value .vl = some v → diagramValue d.hashSizes .vl = v := by
  rw [(diagramValue_sizes h).2.2]
  unfold VlTested SymbolicFields.value
  cases f.vl <;> simp

/-- The pair tests the fields of a word one by one: where the word spells the diagram, the
meaning of all but the operand size and the vector length. -/
theorem and_getOpcodes_iff_of_get (f : SymbolicFields) {d : Diagram} (h : Assembled d) {w : Nat}
    (hw : ∀ k, (∀ i, k ≠ .feature i) → (fldinfo k).get w = diagramValue d.hashSizes k) :
    w &&& (getOpcodes f).2 = (getOpcodes f).1 ↔
      OthersMet f d ∧ d.enc = (f.enc.getD .none).code ∧ OszTested f d ∧ VlTested f d ∧
        ∀ i v, f.feature i = some v → (fldinfo (.feature i)).get w = v.toNat := by
  rw [and_getOpcodes_eq_iff]
  have hkeep := fun k hk => diagramValue_hashSizes d k hk
  have hbool := fun (o : Option Bool) (b : Bool) => (forall_map_toNat o b).mp
  have hbool' := fun (o : Option Bool) (b : Bool) => (forall_map_toNat o b).mpr
  constructor
  · intro hall
    have hold : ∀ k, (k ≠ .vl ∧ k ≠ .yosz ∧ k ≠ .zosz ∧ k ≠ .yasz) →
        (∀ i, k ≠ .feature i) → ∀ v, f.value k = some v → diagramValue d k = v := by
      intro k hk hfeat v hv
      rw [← hkeep k hk, ← hw k hfeat]
      exact hall k v hv
    have hmade : ∀ k, (∀ i, k ≠ .feature i) →
        ∀ v, f.value k = some v → diagramValue d.hashSizes k = v := by
      intro k hfeat v hv
      rw [← hw k hfeat]
      exact hall k v hv
    refine ⟨⟨?_, ?_, ?_, ?_, ?_, ?_, ?_, ?_, ?_, ?_, ?_⟩, ?_, ?_, ?_, ?_⟩
    · exact hbool _ _ (hold .mod (by decide) (by simp))
    · exact (reg_tested h).mpr ⟨hold .reg (by decide) (by simp), hold .cr (by decide) (by simp)⟩
    · intro n hn
      exact hold .rm (by decide) (by simp) n (by simp [SymbolicFields.value, hn])
    · exact hbool _ _ (hold .pf2 (by decide) (by simp))
    · exact hbool _ _ (hold .pf3 (by decide) (by simp))
    · exact hbool _ _ (hold .p66 (by decide) (by simp))
    · exact hbool _ _ (hold .fb (by decide) (by simp))
    · exact hbool _ _ (hold .e (by decide) (by simp))
    · exact (asz_tested h).mpr ⟨hold .asz (by decide) (by simp), hmade .yasz (by simp)⟩
    · exact hbool _ _ (hold .mode (by decide) (by simp))
    · exact hbool _ _ (hold .w (by decide) (by simp))
    · exact hold .enc (by decide) (by simp) _ rfl
    · exact (osz_tested h).mpr ⟨hmade .zosz (by simp), hmade .yosz (by simp)⟩
    · exact (vl_tested h).mpr (hmade .vl (by simp))
    · intro i v hv
      exact hall (.feature i) _ (by rw [SymbolicFields.value, hv]; rfl)
  · rintro ⟨hothers, henc, hosz, hvl, hfeat⟩ k v hv
    cases k with
    | mod =>
        rw [hw .mod (by simp), hkeep .mod (by decide)]
        exact hbool' _ _ hothers.mod v hv
    | reg =>
        rw [hw .reg (by simp), hkeep .reg (by decide)]
        exact ((reg_tested h).mp hothers.reg).1 v hv
    | cr =>
        rw [hw .cr (by simp), hkeep .cr (by decide)]
        exact ((reg_tested h).mp hothers.reg).2 v hv
    | rm =>
        rw [hw .rm (by simp), hkeep .rm (by decide)]
        obtain ⟨n, hn, rfl⟩ := Option.map_eq_some_iff.mp hv
        exact hothers.rm n hn
    | vl =>
        rw [hw .vl (by simp)]
        exact (vl_tested h).mp hvl v hv
    | yosz =>
        rw [hw .yosz (by simp)]
        exact ((osz_tested h).mp hosz).2 v hv
    | zosz =>
        rw [hw .zosz (by simp)]
        exact ((osz_tested h).mp hosz).1 v hv
    | pf2 =>
        rw [hw .pf2 (by simp), hkeep .pf2 (by decide)]
        exact hbool' _ _ hothers.pf2 v hv
    | pf3 =>
        rw [hw .pf3 (by simp), hkeep .pf3 (by decide)]
        exact hbool' _ _ hothers.pf3 v hv
    | p66 =>
        rw [hw .p66 (by simp), hkeep .p66 (by decide)]
        exact hbool' _ _ hothers.p66 v hv
    | fb =>
        rw [hw .fb (by simp), hkeep .fb (by decide)]
        exact hbool' _ _ hothers.fb v hv
    | enc =>
        rw [hw .enc (by simp), hkeep .enc (by decide)]
        cases hv
        exact henc
    | e =>
        rw [hw .e (by simp), hkeep .e (by decide)]
        exact hbool' _ _ hothers.e v hv
    | asz =>
        rw [hw .asz (by simp), hkeep .asz (by decide)]
        exact ((asz_tested h).mp hothers.asz).1 v hv
    | yasz =>
        rw [hw .yasz (by simp)]
        exact ((asz_tested h).mp hothers.asz).2 v hv
    | mode =>
        rw [hw .mode (by simp), hkeep .mode (by decide)]
        exact hbool' _ _ hothers.mode v hv
    | w =>
        rw [hw .w (by simp), hkeep .w (by decide)]
        exact hbool' _ _ hothers.w v hv
    | feature i =>
        obtain ⟨c, hc, rfl⟩ := Option.map_eq_some_iff.mp hv
        exact hfeat i c hc

/-- The test of the pair on the hashcode. -/
theorem and_getOpcodes_iff (f : SymbolicFields) {d : Diagram} (h : Assembled d) :
    d.hashSizes.hashcode.toNat &&& (getOpcodes f).2 = (getOpcodes f).1 ↔
      OthersMet f d ∧ d.enc = (f.enc.getD .none).code ∧ OszTested f d ∧ VlTested f d ∧
        FeaturesMet f d := by
  rw [and_getOpcodes_iff_of_get f h fun k _ => fldinfo_get_hashcode h.fieldsFit k]
  have hfeat : (∀ i v, f.feature i = some v →
      (fldinfo (.feature i)).get d.hashSizes.hashcode.toNat = v.toNat) ↔ FeaturesMet f d := by
    constructor
    · intro hall i v hv
      have hbit := hall i v hv
      rw [fldinfo_get_hashcode h.fieldsFit, diagramValue_hashSizes d _ (by simp)] at hbit
      cases hd : d.features.testBit i.index <;> cases v <;> simp_all [diagramValue]
    · intro hmet i v hv
      rw [fldinfo_get_hashcode h.fieldsFit, diagramValue_hashSizes d _ (by simp)]
      exact congrArg Bool.toNat (hmet i v hv)
  rw [hfeat]

/-! ## Where the two sides disagree -/

/-- A diagram that satisfies the fields and that the pair refuses: a combined operand size
class and an operand size of 32. -/
def Refused (f : SymbolicFields) (d : Diagram) : Prop :=
  Satisfied f d ∧ (f.osz = some .z ∨ f.osz = some .y) ∧ operandSize d = some 1

/-- A diagram that the pair accepts for a vector length although it has none: the operand
size of a legacy instruction has the code of that length. -/
def Mistaken (f : SymbolicFields) (d : Diagram) : Prop :=
  OthersMet f d ∧ FeaturesMet f d ∧ OszTested f d ∧ VlTested f d ∧
    d.enc = (f.enc.getD .none).code ∧ d.enc = encodingNone ∧ f.vl.isSome

/-- The pair tests less than the operand size class says. -/
theorem oszTested_iff (f : SymbolicFields) (d : Diagram) :
    OszTested f d ↔
      OszMet f d ∧ ¬((f.osz = some .z ∨ f.osz = some .y) ∧ operandSize d = some 1) := by
  unfold OszTested OszMet
  cases f.osz with
  | none => simp
  | some c =>
      cases operandSize d with
      | none => simp
      | some size => cases c <;> simp [OperandSize.codes, OperandSize.accepted] <;> omega

/-- The vector length is tested where there is one. -/
theorem vlTested_iff (f : SymbolicFields) {d : Diagram} (h : Assembled d) :
    VlMet f d ↔ VlTested f d ∧ (f.vl.isSome → d.enc ≠ encodingNone) := by
  have hvl := h.vl
  unfold VlTested VlMet vectorLength operandSize
  cases f.vl with
  | none => simp
  | some l =>
      by_cases henc : d.enc = encodingNone
      · simp [henc]
      · simp [henc, Nat.mod_eq_of_lt hvl]

/-- The pair of `get_opcodes` matches the hashcode of the diagrams that satisfy the fields,
apart from those it refuses or mistakes. -/
theorem getOpcodes_iff (f : SymbolicFields) {d : Diagram} (h : Assembled d) :
    (d.hashSizes.hashcode.toNat &&& (getOpcodes f).2 = (getOpcodes f).1 ↔ Satisfied f d) ↔
      ¬Refused f d ∧ ¬Mistaken f d := by
  rw [and_getOpcodes_iff f h]
  have hosz := oszTested_iff f d
  have hvl := vlTested_iff f h
  constructor
  · intro hiff
    constructor
    · rintro ⟨hsat, hclass⟩
      exact (hosz.mp (hiff.mpr hsat).2.2.1).2 hclass
    · rintro ⟨hothers, hfeat, hosz', hvl', henc, hnone, hsome⟩
      exact (hvl.mp (hiff.mp ⟨hothers, henc, hosz', hvl', hfeat⟩).vl).2 hsome hnone
  · rintro ⟨hrefused, hmistaken⟩
    constructor
    · rintro ⟨hothers, henc, hosz', hvl', hfeat⟩
      refine ⟨hothers, henc, (hosz.mp hosz').1, hvl.mpr ⟨hvl', fun hsome hnone => ?_⟩, hfeat⟩
      exact hmistaken ⟨hothers, hfeat, hosz', hvl', henc, hnone, hsome⟩
    · intro hsat
      exact ⟨hsat.others, hsat.enc, hosz.mpr ⟨hsat.osz, fun hclass => hrefused ⟨hsat, hclass⟩⟩,
        (hvl.mp hsat.vl).1, hsat.features⟩

/-- A 64-bit legacy instruction and a record that only states its size. -/
theorem getOpcodes_size64 :
    (({ (default : Diagram) with osz := 2 }).hashSizes.hashcode.toNat &&&
        (getOpcodes { osz := some .s64 }).2 = (getOpcodes { osz := some .s64 }).1 ↔
      Satisfied { osz := some .s64 } { (default : Diagram) with osz := 2 }) := by
  refine (getOpcodes_iff { osz := some .s64 }
    ⟨by decide, by decide, by decide, by decide, by decide, by decide, rfl, rfl, rfl, rfl⟩).mpr
    ⟨?_, ?_⟩
  · rintro ⟨-, hz | hy, -⟩
    · cases hz
    · cases hy
  · rintro ⟨-, -, -, -, -, -, hvl⟩
    cases hvl

/-- Class `z` refuses an operand size of 32. -/
theorem not_getOpcodes_z32 :
    ¬∀ (f : SymbolicFields) (d : Diagram), Assembled d →
      (d.hashSizes.hashcode.toNat &&& (getOpcodes f).2 = (getOpcodes f).1 ↔ Satisfied f d) := by
  intro h
  have hz := (h { osz := some .z } { (default : Diagram) with osz := 1 }
    ⟨by decide, by decide, by decide, by decide, by decide, by decide, rfl, rfl, rfl, rfl⟩).mpr
    ⟨⟨by simp, by simp, by simp, by simp, by simp, by simp, by simp, by simp, by simp, by simp,
      by simp⟩, rfl, by rintro c ⟨⟩; exact ⟨1, rfl, by decide⟩, by simp [VlMet],
      by simp [FeaturesMet]⟩
  exact absurd hz (by decide)

end Amed.Generator
