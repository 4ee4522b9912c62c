import Amed.Generator.Binary
import Amed.X86.Decoder

/-!
# The hashcode layout of the x86 generator

`get_opcodes` turns the symbolic fields of an encoding or of a template into an opcode and a
mask, in the layout of the decoder's hashcode.

## Implementation notes

The fields that `get_opcodes` only files away (`D64`, `F64`, `RVL`) or that select the table
(`MAP`, `OP`) are left out. `B` and `BP` name the same bit and are one field; `CR`, `YOSZ`,
`ZOSZ` and `YASZ` are filled in by the code. `%fields` after the special values is the
function `SymbolicFields.value`.
-/

namespace Amed.Generator

open BitFields X86

/-- The values of `ENC`. -/
inductive Enc
  | none | vex | evex | mvex | xop | threeDNow
  deriving DecidableEq, Repr

def Enc.code : Enc → Nat
  | .none => 0
  | .vex => 1
  | .evex => 2
  | .mvex => 3
  | .xop => 4
  | .threeDNow => 5

/-- The values of `OSZ`. -/
inductive OperandSize
  | s16 | s32 | s64 | z | y
  deriving DecidableEq, Repr

/-- The values of `ASZ`. -/
inductive AddressSize
  | s16 | s32 | s64 | y
  deriving DecidableEq, Repr

/-- The values of `VL`. -/
inductive VectorLength
  | v128 | v256 | v512
  deriving DecidableEq, Repr

def VectorLength.code : VectorLength → Nat
  | .v128 => 0
  | .v256 => 1
  | .v512 => 2

/-- The values of `REG`: a number, or `nnn` for any but 0. -/
inductive RegField
  | nnn
  | number (n : Fin 8)
  deriving DecidableEq, Repr

/-- The features, in the order of their bits. -/
inductive Feature
  | amd | knc | mpx | bmi | cldemote | cet
  deriving DecidableEq, Repr

def Feature.index : Feature → Nat
  | .amd => 0
  | .knc => 1
  | .mpx => 2
  | .bmi => 3
  | .cldemote => 4
  | .cet => 5

/-- The symbolic fields of a record. `mod` is true for `reg`, `mode` for `64`. -/
structure SymbolicFields where
  mod : Option Bool := none
  reg : Option RegField := none
  rm : Option (Fin 8) := none
  vl : Option VectorLength := none
  osz : Option OperandSize := none
  pf2 : Option Bool := none
  pf3 : Option Bool := none
  p66 : Option Bool := none
  fb : Option Bool := none
  enc : Option Enc := none
  e : Option Bool := none
  asz : Option AddressSize := none
  mode : Option Bool := none
  w : Option Bool := none
  feature : Feature → Option Bool := fun _ => none

/-- The keys of `%fldinfo`, and the features. -/
inductive Key
  | mod | reg | cr | rm | vl | yosz | zosz | pf2 | pf3 | p66 | fb | enc | e | asz | yasz | mode
  | w | feature (i : Feature)
  deriving DecidableEq, Repr

def keys : List Key :=
  [.mod, .reg, .cr, .rm, .vl, .yosz, .zosz, .pf2, .pf3, .p66, .fb, .enc, .e, .asz, .yasz, .mode,
    .w, .feature .amd, .feature .knc, .feature .mpx, .feature .bmi, .feature .cldemote,
    .feature .cet]

theorem mem_keys (k : Key) : k ∈ keys := by
  cases k with
  | feature i => cases i <;> decide
  | _ => decide

/-- `%fldinfo`, and the bits of the features. -/
def fldinfo : Key → Field
  | .mod => ⟨0, 1⟩
  | .reg => ⟨1, 3⟩
  | .cr => ⟨4, 1⟩
  | .rm => ⟨5, 3⟩
  | .vl => ⟨8, 2⟩
  | .yosz => ⟨10, 1⟩
  | .zosz => ⟨11, 1⟩
  | .pf2 => ⟨12, 1⟩
  | .pf3 => ⟨13, 1⟩
  | .p66 => ⟨14, 1⟩
  | .fb => ⟨15, 1⟩
  | .enc => ⟨16, 3⟩
  | .e => ⟨19, 1⟩
  | .asz => ⟨20, 2⟩
  | .yasz => ⟨22, 1⟩
  | .mode => ⟨23, 1⟩
  | .w => ⟨24, 1⟩
  | .feature i => ⟨25 + i.index, 1⟩

/-- `%fields` behind the special values. -/
def SymbolicFields.value (f : SymbolicFields) : Key → Option Nat
  | .mod => f.mod.map Bool.toNat
  | .reg =>
      match f.reg with
      | some (.number n) => some n
      | _ => none
  | .cr => f.reg.map fun reg => if reg = .number 0 then 0 else 1
  | .rm => f.rm.map Fin.val
  | .vl => f.vl.map VectorLength.code
  | .yosz => f.osz.map fun osz => if osz = .y ∨ osz = .s32 ∨ osz = .s64 then 1 else 0
  | .zosz => f.osz.map fun osz => if osz = .z ∨ osz = .s16 ∨ osz = .s32 then 1 else 0
  | .pf2 => f.pf2.map Bool.toNat
  | .pf3 => f.pf3.map Bool.toNat
  | .p66 => f.p66.map Bool.toNat
  | .fb => f.fb.map Bool.toNat
  | .enc => some (f.enc.getD .none).code
  | .e => f.e.map Bool.toNat
  | .asz =>
      match f.asz with
      | some .s16 => some 0
      | some .s32 => some 1
      | some .s64 => some 2
      | _ => none
  | .yasz => f.asz.map fun asz => if asz = .s16 then 0 else 1
  | .mode => f.mode.map Bool.toNat
  | .w => f.w.map Bool.toNat
  | .feature i => (f.feature i).map Bool.toNat

/-- The fields that are filled in, with their values. -/
def SymbolicFields.settings (f : SymbolicFields) : List Setting :=
  keys.filterMap fun k => (f.value k).map (Setting.mk (fldinfo k))

/-- `get_opcodes`: the opcode and the mask. -/
def getOpcodes (f : SymbolicFields) : Nat × Nat :=
  f.settings.foldl (fun result s =>
    (result.1 ||| s.value <<< s.field.pos,
      result.2 ||| getMaskFromRange s.field.pos (s.field.pos + s.field.width - 1))) (0, 0)

/-! ## The pair as settings -/

theorem fldinfo_width (k : Key) : 0 < (fldinfo k).width := by
  cases k <;> simp [fldinfo]

/-- The pair is the value and the mask of the settings. -/
theorem getOpcodes_eq (f : SymbolicFields) :
    getOpcodes f = (valueOf f.settings, maskOf f.settings) := by
  have hwidth : ∀ s ∈ f.settings, 0 < s.field.width := by
    intro s hs
    obtain ⟨k, -, hk⟩ := List.mem_filterMap.mp hs
    obtain ⟨v, -, rfl⟩ := Option.map_eq_some_iff.mp hk
    exact fldinfo_width k
  have hfold : ∀ (ss : List Setting) (r : Nat × Nat), (∀ s ∈ ss, 0 < s.field.width) →
      ss.foldl (fun result s => (result.1 ||| s.value <<< s.field.pos,
        result.2 ||| getMaskFromRange s.field.pos (s.field.pos + s.field.width - 1))) r =
          (r.1 ||| valueOf ss, r.2 ||| maskOf ss) := by
    intro ss
    induction ss with
    | nil =>
        intro r _
        simp [valueOf, maskOf]
    | cons s ss ih =>
        intro r hss
        obtain ⟨hs, hrest⟩ := List.forall_mem_cons.mp hss
        rw [List.foldl_cons, ih _ hrest, getMaskFromRange_eq _ hs, valueOf, maskOf, Nat.lor_assoc,
          Nat.lor_assoc]
  rw [getOpcodes, hfold _ _ hwidth, Nat.zero_or, Nat.zero_or]

theorem value_lt (f : SymbolicFields) (k : Key) {v : Nat} (hv : f.value k = some v) :
    v < 2 ^ (fldinfo k).width := by
  have hbool : ∀ {o : Option Bool} {v : Nat}, o.map Bool.toNat = some v → v < 2 ^ 1 := by
    intro o v h
    obtain ⟨b, -, rfl⟩ := Option.map_eq_some_iff.mp h
    exact Bool.toNat_lt b
  cases k with
  | reg =>
      simp only [SymbolicFields.value] at hv
      split at hv
      · cases hv
        rename_i n _
        exact n.isLt
      · cases hv
  | rm =>
      obtain ⟨n, -, rfl⟩ := Option.map_eq_some_iff.mp hv
      exact n.isLt
  | vl =>
      obtain ⟨l, -, rfl⟩ := Option.map_eq_some_iff.mp hv
      cases l <;> decide
  | enc =>
      cases hv
      generalize f.enc.getD Enc.none = enc
      cases enc <;> decide
  | asz =>
      simp only [SymbolicFields.value] at hv
      split at hv <;> cases hv <;> decide
  | cr =>
      obtain ⟨r, -, rfl⟩ := Option.map_eq_some_iff.mp hv
      split <;> decide
  | yosz =>
      obtain ⟨r, -, rfl⟩ := Option.map_eq_some_iff.mp hv
      split <;> decide
  | zosz =>
      obtain ⟨r, -, rfl⟩ := Option.map_eq_some_iff.mp hv
      split <;> decide
  | yasz =>
      obtain ⟨r, -, rfl⟩ := Option.map_eq_some_iff.mp hv
      split <;> decide
  | _ => exact hbool hv

/-- Every value that is filled in fits its field. -/
theorem settings_fits (f : SymbolicFields) : ∀ s ∈ f.settings, s.Fits := by
  intro s hs
  obtain ⟨k, -, hk⟩ := List.mem_filterMap.mp hs
  obtain ⟨v, hv, rfl⟩ := Option.map_eq_some_iff.mp hk
  exact value_lt f k hv

/-- No two keys share a bit. -/
theorem keys_apart : keys.Pairwise fun k k' => (fldinfo k).Apart (fldinfo k') := by
  decide

theorem settings_apart (f : SymbolicFields) :
    f.settings.Pairwise fun s t => s.field.Apart t.field := by
  refine keys_apart.filterMap _ fun k k' hkk s hs t ht => ?_
  obtain ⟨v, -, rfl⟩ := Option.map_eq_some_iff.mp hs
  obtain ⟨v', -, rfl⟩ := Option.map_eq_some_iff.mp ht
  exact hkk

/-- A word passes the test of the pair exactly when every key that is filled in has its value. -/
theorem and_getOpcodes_eq_iff (f : SymbolicFields) (w : Nat) :
    w &&& (getOpcodes f).2 = (getOpcodes f).1 ↔
      ∀ k v, f.value k = some v → (fldinfo k).get w = v := by
  rw [getOpcodes_eq]
  refine (and_maskOf_eq_iff (settings_fits f) (settings_apart f) w).trans ?_
  constructor
  · intro h k v hv
    exact h ⟨fldinfo k, v⟩ (List.mem_filterMap.mpr ⟨k, mem_keys k, by rw [hv]; rfl⟩)
  · intro h s hs
    obtain ⟨k, -, hk⟩ := List.mem_filterMap.mp hs
    obtain ⟨v, hv, rfl⟩ := Option.map_eq_some_iff.mp hk
    exact h k v hv

end Amed.Generator
