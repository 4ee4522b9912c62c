import Amed.X86.Scan

/-!
# The escape behind the prefixes

The map escape 0F and the vector prefixes: which bytes are accepted, what they consume
and what they leave alone. A refused vector prefix leaves the state as it was.
-/

namespace Amed.X86

open Bytes

@[simp] theorem Diagram.setPpField_longMode (d : Diagram) (v : Nat) :
    (d.setPpField v).longMode = d.longMode := by
  unfold Diagram.setPpField
  split <;> rfl

@[simp] theorem Diagram.setPpField_hasIs4 (d : Diagram) (v : Nat) :
    (d.setPpField v).hasIs4 = d.hasIs4 := by
  unfold Diagram.setPpField
  split <;> rfl

@[simp] theorem Diagram.setLlField_longMode (d : Diagram) (v : Nat) :
    (d.setLlField v).longMode = d.longMode := by
  unfold Diagram.setLlField
  split <;> rfl

@[simp] theorem Diagram.setLlField_hasIs4 (d : Diagram) (v : Nat) :
    (d.setLlField v).hasIs4 = d.hasIs4 := by
  unfold Diagram.setLlField
  split <;> rfl

@[simp] theorem Diagram.setWField_longMode (d : Diagram) (v : Bool) :
    (d.setWField v).longMode = d.longMode := rfl

@[simp] theorem Diagram.setWField_hasIs4 (d : Diagram) (v : Bool) :
    (d.setWField v).hasIs4 = d.hasIs4 := rfl

/-! ## Which bytes are accepted -/

/-- Outside long mode the three high bits of the second byte must be set. -/
def acceptsRxb (longMode : Bool) (byte1 : UInt8) : Bool :=
  longMode || (bit byte1 7 && bit byte1 6 && bit byte1 5)

def acceptsVex2 (longMode : Bool) : List UInt8 → Bool
  | [_, byte1] => longMode || bit byte1 7
  | _ => false

def acceptsVex3 (longMode : Bool) : List UInt8 → Bool
  | [_, byte1, _] => acceptsRxb longMode byte1 && (mmmmmField (bits byte1 0 5)).isSome
  | _ => false

def acceptsXop (longMode : Bool) : List UInt8 → Bool
  | [_, byte1, _] => acceptsRxb longMode byte1 && (xopMap (bits byte1 0 5)).isSome
  | _ => false

def acceptsMevex (longMode : Bool) : List UInt8 → Bool
  | [_, byte1, byte2, _] =>
      if bits byte1 2 2 ≠ 0 ∨ !bit byte2 2 then longMode && (mvexMap (bits byte1 0 4)).isSome
      else acceptsRxb longMode byte1 && (mmmmmField (bits byte1 0 2)).isSome
  | _ => false

/-- The length of a vector prefix that starts with `op`, and the bytes it may have. -/
def vectorPrefix (longMode : Bool) (op : UInt8) : Option (Nat × (List UInt8 → Bool)) :=
  match op.toNat with
  | 0x8f => some (3, acceptsXop longMode)
  | 0x62 => some (4, acceptsMevex longMode)
  | 0xc4 => some (3, acceptsVex3 longMode)
  | 0xc5 => some (2, acceptsVex2 longMode)
  | _ => none

/-- The number of bytes of the vector prefix at a position; 0 where there is none or
where it is refused. -/
def vectorWidth (buf : Buffer) (longMode : Bool) (pos : Nat) : Nat :=
  match (buf.peekByte pos).bind (vectorPrefix longMode) with
  | none => 0
  | some (n, accepts) => if (buf.peekBytes pos n).any accepts then n else 0

theorem takeBytes_of_peekBytes {buf : Buffer} {s : Internal} {type : BytecodeType} {n : Nat}
    {bs : List UInt8} (h : buf.peekBytes s.pc n = some bs) :
    s.takeBytes buf type n = some (bs, (s.advance n).addBytecode type bs) := by
  simp only [Internal.takeBytes, h]

theorem takeBytes_of_peekBytes_none {buf : Buffer} {s : Internal} {type : BytecodeType} {n : Nat}
    (h : buf.peekBytes s.pc n = none) : s.takeBytes buf type n = none := by
  simp only [Internal.takeBytes, h]

/-- A refusal outside long mode, as the code tests it. -/
theorem isSome_guard {α : Type*} (longMode accepted : Bool) (a : α) :
    (if (!longMode && !accepted) = true then none else some a).isSome =
      ((longMode || accepted) && true) := by
  cases longMode <;> cases accepted <;> rfl

/-- A two-byte VEX escape is accepted by the byte behind it, if both can be read. -/
theorem decodeVex2_isSome (buf : Buffer) (s : Internal) :
    (decodeVex2 buf s).isSome = (buf.peekBytes s.pc 2).any (acceptsVex2 s.diagram.longMode) := by
  unfold decodeVex2
  cases h : buf.peekBytes s.pc 2 with
  | none => simp [takeBytes_of_peekBytes_none h]
  | some bs =>
      obtain ⟨-, rfl⟩ := peekBytes_eq_some.mp h
      simp only [takeBytes_of_peekBytes h, slice_succ, slice_zero, Option.any_some, acceptsVex2,
        Internal.addBytecode, Internal.advance]
      cases s.diagram.longMode <;> cases bit (buf.address (s.pc + 1)) 7 <;> rfl

/-- A three-byte VEX escape is accepted by its second byte. -/
theorem decodeVex3_isSome (buf : Buffer) (s : Internal) :
    (decodeVex3 buf s).isSome = (buf.peekBytes s.pc 3).any (acceptsVex3 s.diagram.longMode) := by
  unfold decodeVex3
  cases h : buf.peekBytes s.pc 3 with
  | none => simp [takeBytes_of_peekBytes_none h]
  | some bs =>
      obtain ⟨-, rfl⟩ := peekBytes_eq_some.mp h
      simp only [takeBytes_of_peekBytes h, slice_succ, slice_zero, Option.any_some, acceptsVex3]
      cases mmmmmField (bits (buf.address (s.pc + 1)) 0 5) with
      | none => simp
      | some map => exact isSome_guard _ _ _

/-- An XOP escape is accepted by its second byte. -/
theorem decodeXop_isSome (buf : Buffer) (s : Internal) :
    (decodeXop buf s).isSome = (buf.peekBytes s.pc 3).any (acceptsXop s.diagram.longMode) := by
  unfold decodeXop
  cases h : buf.peekBytes s.pc 3 with
  | none => simp [takeBytes_of_peekBytes_none h]
  | some bs =>
      obtain ⟨-, rfl⟩ := peekBytes_eq_some.mp h
      simp only [takeBytes_of_peekBytes h, slice_succ, slice_zero, Option.any_some, acceptsXop]
      cases xopMap (bits (buf.address (s.pc + 1)) 0 5) with
      | none => simp
      | some map => exact isSome_guard _ _ _

/-- An EVEX or MVEX escape is accepted by the three bytes behind it. -/
theorem decodeMevex_isSome (buf : Buffer) (s : Internal) :
    (decodeMevex buf s).isSome = (buf.peekBytes s.pc 4).any (acceptsMevex s.diagram.longMode) := by
  unfold decodeMevex
  cases h : buf.peekBytes s.pc 4 with
  | none => rfl
  | some bs =>
      obtain ⟨-, rfl⟩ := peekBytes_eq_some.mp h
      simp only [slice_succ, slice_zero, Option.any_some, acceptsMevex]
      split
      · unfold decodeMvex
        cases s.diagram.longMode with
        | false => rfl
        | true => cases hmap : mvexMap (bits (buf.address (s.pc + 1)) 0 4) <;> rfl
      · unfold decodeEvex
        cases mmmmmField (bits (buf.address (s.pc + 1)) 0 2) with
        | none => simp
        | some map => exact isSome_guard _ _ _

/-! ## What an escape consumes -/

/-- Reading bytes moves the counter and the record only. -/
theorem takeBytes_frame {buf : Buffer} {s s' : Internal} {type : BytecodeType} {n : Nat}
    {bs : List UInt8} (h : s.takeBytes buf type n = some (bs, s')) : Frame s s' := by
  obtain ⟨-, -, rfl⟩ := takeBytes_eq_some.mp h
  exact ⟨rfl, rfl, rfl, rfl, rfl, rfl⟩

/-- From `s` to `s'` one vector prefix of `n` bytes has been taken in. -/
structure TakesVector (buf : Buffer) (s s' : Internal) (n : Nat) : Prop where
  field : ∃ f, f.type ≠ .map ∧ f.bytes.length = n ∧ Consumes buf s.cursor s'.cursor [f]
  frame : Frame s s'
  mapidx : s'.mapidx ≠ mapIdx0F0F

/-- A field taken from the buffer, and changes that keep the counter and the record. -/
theorem takesVector_of_take {buf : Buffer} {s s₁ s' : Internal} {type : BytecodeType} {n : Nat}
    {bs : List UInt8} (htake : s.takeBytes buf type n = some (bs, s₁)) (htype : type ≠ .map)
    (hcur : s'.cursor = s₁.cursor) (hframe : Frame s₁ s') (hmap : s'.mapidx ≠ mapIdx0F0F) :
    TakesVector buf s s' n := by
  refine ⟨⟨⟨type, bs⟩, htype, takeBytes_length htake, ?_⟩, (takeBytes_frame htake).trans hframe, hmap⟩
  rw [hcur]
  exact takeBytes_consumes htake htype

theorem mmmmmField_ne {v map : Nat} (h : mmmmmField v = some map) :
    map ≠ mapIdx0F0F := by
  unfold mmmmmField at h
  split at h <;> simp_all [mapIdx0F, mapIdx0F0F, mapIdx0F38, mapIdx0F3A] <;> omega

theorem mvexMap_ne {v map : Nat} (h : mvexMap v = some map) : map ≠ mapIdx0F0F := by
  unfold mvexMap at h
  split at h <;> simp_all [mapIdx0F, mapIdx0F0F, mapIdx0F38, mapIdx0F3A] <;> omega

theorem xopMap_ne {v map : Nat} (h : xopMap v = some map) : map ≠ mapIdx0F0F := by
  unfold xopMap at h
  split at h <;> simp_all [mapIdx0F0F, mapIdxXop8, mapIdxXop9, mapIdxXopA] <;> omega

theorem decodeVex2_takes {buf : Buffer} {s s' : Internal} (h : decodeVex2 buf s = some s') :
    TakesVector buf s s' 2 := by
  unfold decodeVex2 at h
  split at h
  · rename_i htake
    split at h
    · exact absurd h (by simp)
    · obtain rfl := Option.some.inj h
      exact takesVector_of_take htake (by decide) rfl ⟨by simp, by simp, rfl, rfl, rfl, rfl⟩
        (by simp [mapIdx0F, mapIdx0F0F])
  · exact absurd h (by simp)

theorem decodeVex3_takes {buf : Buffer} {s s' : Internal} (h : decodeVex3 buf s = some s') :
    TakesVector buf s s' 3 := by
  unfold decodeVex3 at h
  split at h
  · rename_i htake
    split at h
    · exact absurd h (by simp)
    · split at h
      · exact absurd h (by simp)
      · rename_i hmap
        obtain rfl := Option.some.inj h
        exact takesVector_of_take htake (by decide) rfl ⟨by simp, by simp, rfl, rfl, rfl, rfl⟩
          (mmmmmField_ne hmap)
  · exact absurd h (by simp)

theorem decodeXop_takes {buf : Buffer} {s s' : Internal} (h : decodeXop buf s = some s') :
    TakesVector buf s s' 3 := by
  unfold decodeXop at h
  split at h
  · rename_i htake
    split at h
    · exact absurd h (by simp)
    · split at h
      · exact absurd h (by simp)
      · rename_i hmap
        obtain rfl := Option.some.inj h
        exact takesVector_of_take htake (by decide) rfl ⟨by simp, by simp, rfl, rfl, rfl, rfl⟩
          (xopMap_ne hmap)
  · exact absurd h (by simp)

theorem decodeMvex_frame {s s' : Internal} {byte1 byte2 byte3 : UInt8}
    (h : decodeMvex s byte1 byte2 byte3 = some s') :
    s'.cursor = s.cursor ∧ Frame s s' ∧ s'.mapidx ≠ mapIdx0F0F := by
  unfold decodeMvex at h
  split at h
  · exact absurd h (by simp)
  · rename_i hmap
    obtain rfl := Option.some.inj h
    exact ⟨rfl, ⟨by simp, by simp, rfl, rfl, rfl, rfl⟩, mvexMap_ne hmap⟩

theorem decodeEvex_frame {s s' : Internal} {byte1 byte2 byte3 : UInt8}
    (h : decodeEvex s byte1 byte2 byte3 = some s') :
    s'.cursor = s.cursor ∧ Frame s s' ∧ s'.mapidx ≠ mapIdx0F0F := by
  unfold decodeEvex at h
  split at h
  · exact absurd h (by simp)
  · split at h
    · exact absurd h (by simp)
    · rename_i hmap
      obtain rfl := Option.some.inj h
      exact ⟨rfl, ⟨by simp, by simp, rfl, rfl, rfl, rfl⟩, mmmmmField_ne hmap⟩

theorem decodeMevex_takes {buf : Buffer} {s s' : Internal} (h : decodeMevex buf s = some s') :
    TakesVector buf s s' 4 := by
  unfold decodeMevex at h
  split at h
  · rename_i hbs
    split at h
    · split at h
      · obtain ⟨hcur, hframe, hmap⟩ := decodeMvex_frame h
        exact takesVector_of_take (takeBytes_of_peekBytes hbs) (by decide) hcur hframe hmap
      · exact absurd h (by simp)
    · obtain ⟨hcur, hframe, hmap⟩ := decodeEvex_frame h
      exact takesVector_of_take (takeBytes_of_peekBytes hbs) (by decide) hcur hframe hmap
  · exact absurd h (by simp)

/-- The field of the map escape at a position. -/
def mapField (buf : Buffer) (pos : Nat) : Bytecode :=
  match (buf.peekByte (pos + 1)).bind secondEscape with
  | some (_, word) => ⟨.map, toLe 2 word⟩
  | none => ⟨.map, [0x0f]⟩

/-- The map the escape at a position selects. -/
def mapIndex (buf : Buffer) (pos : Nat) : Nat :=
  match (buf.peekByte (pos + 1)).bind secondEscape with
  | some (map, _) => map
  | none => mapIdx0F

theorem secondEscape_spec {op : UInt8} {map word : Nat} (h : secondEscape op = some (map, word)) :
    (toLe 2 word).reverse = [0x0f, op] := by
  unfold secondEscape at h
  split at h
  · rename_i hop
    obtain ⟨rfl, rfl⟩ := Prod.mk.inj (Option.some.inj h)
    rw [hop]
    decide
  · split at h
    · rename_i hop
      obtain ⟨rfl, rfl⟩ := Prod.mk.inj (Option.some.inj h)
      rw [hop]
      decide
    · split at h
      · rename_i hop
        obtain ⟨rfl, rfl⟩ := Prod.mk.inj (Option.some.inj h)
        rw [hop]
        decide
      · exact absurd h (by simp)

/-- From `s` to `s'` the map escape at the counter has been taken in. -/
structure TakesMap (buf : Buffer) (s s' : Internal) : Prop where
  consumes : Consumes buf s.cursor s'.cursor [mapField buf s.pc]
  frame : Frame s s'
  mapidx : s'.mapidx = mapIndex buf s.pc
  diagram : s'.diagram = s.diagram

theorem decodeMap_takes {buf : Buffer} {s : Internal} (hop : buf.peekByte s.pc = some 0x0f) :
    TakesMap buf s (decodeMap buf s) := by
  obtain ⟨hin, hop⟩ := peekByte_eq_some.mp hop
  have hpc : ({ s with mapidx := mapIdx0F }.advance 1).pc = s.pc + 1 :=
    Nat.mod_eq_of_lt (Nat.lt_of_le_of_lt hin buf.nb_lt)
  cases hsecond : (buf.peekByte (s.pc + 1)).bind secondEscape with
  | none =>
      have hmap : decodeMap buf s = ({ s with mapidx := mapIdx0F }.advance 1).addBytecode .map
          [0x0f] := by
        simp only [decodeMap, hpc, hsecond]
      have hfield : mapField buf s.pc = ⟨.map, [0x0f]⟩ := by simp only [mapField, hsecond]
      rw [hmap]
      refine ⟨?_, ⟨rfl, rfl, rfl, rfl, rfl, rfl⟩, by simp only [mapIndex, hsecond]; rfl, rfl⟩
      rw [hfield]
      exact consumes_advance buf (s := s) (f := ⟨.map, [0x0f]⟩) (by simpa using hin)
        (by simp [inputBytes, hop])
  | some p =>
      obtain ⟨map, word⟩ := p
      obtain ⟨op, hpeek, hesc⟩ := Option.bind_eq_some_iff.mp hsecond
      obtain ⟨hin₂, hop₂⟩ := peekByte_eq_some.mp hpeek
      have hrev := secondEscape_spec hesc
      have hmap : decodeMap buf s =
          ({ { s with mapidx := mapIdx0F }.advance 1 with mapidx := map }.advance 1).addBytecode
            .map (toLe 2 word) := by
        simp only [decodeMap, hpc, hsecond]
      have hfield : mapField buf s.pc = ⟨.map, toLe 2 word⟩ := by simp only [mapField, hsecond]
      rw [hmap]
      refine ⟨?_, ⟨rfl, rfl, rfl, rfl, rfl, rfl⟩, by simp only [mapIndex, hsecond]; rfl, rfl⟩
      have hlt := buf.nb_lt
      have hadd : ((s.pc + 1) % 256 + 1) % 256 = (s.pc + 2) % 256 := by omega
      have hc := consumes_advance buf (s := s) (f := ⟨.map, toLe 2 word⟩)
        (by rw [toLe_length]; omega) (by simp [inputBytes, hrev, slice_succ, ← hop, ← hop₂])
      simp only [toLe_length] at hc
      rw [hfield]
      simpa [Internal.cursor, Internal.advance, Internal.addBytecode, hadd] using hc

/-- What the bytes behind the prefixes do: nothing, a vector prefix, or a map escape. -/
theorem decodeEscape_cases {buf : Buffer} {s : Internal} {op : UInt8}
    (hop : buf.peekByte s.pc = some op) :
    (op ≠ 0x0f ∧ vectorWidth buf s.diagram.longMode s.pc = 0 ∧ decodeEscape buf s op = s) ∨
      (op ≠ 0x0f ∧ vectorWidth buf s.diagram.longMode s.pc ≠ 0 ∧
        TakesVector buf s (decodeEscape buf s op) (vectorWidth buf s.diagram.longMode s.pc)) ∨
      (op = 0x0f ∧ TakesMap buf s (decodeEscape buf s op)) := by
  have hvector : ∀ {r : Option Internal} {n : Nat} {accepts : List UInt8 → Bool}, op ≠ 0x0f →
      vectorPrefix s.diagram.longMode op = some (n + 1, accepts) →
      decodeEscape buf s op = r.getD s →
      r.isSome = (buf.peekBytes s.pc (n + 1)).any accepts →
      (∀ s', r = some s' → TakesVector buf s s' (n + 1)) →
      (op ≠ 0x0f ∧ vectorWidth buf s.diagram.longMode s.pc = 0 ∧ decodeEscape buf s op = s) ∨
        (op ≠ 0x0f ∧ vectorWidth buf s.diagram.longMode s.pc ≠ 0 ∧
          TakesVector buf s (decodeEscape buf s op) (vectorWidth buf s.diagram.longMode s.pc)) := by
    intro r n accepts hne hprefix hr hsome htakes
    have hwidth : vectorWidth buf s.diagram.longMode s.pc = if r.isSome then n + 1 else 0 := by
      simp only [vectorWidth, hop, Option.bind_some, hprefix, hsome]
    rw [hwidth, hr]
    cases hs : r with
    | none => exact .inl ⟨hne, rfl, rfl⟩
    | some s' => exact .inr ⟨hne, by simp, htakes s' hs⟩
  rw [← or_assoc]
  by_cases hmap : op = 0x0f
  · subst hmap
    exact .inr ⟨rfl, decodeMap_takes hop⟩
  · left
    by_cases hxop : op.toNat = 0x8f
    · exact hvector hmap (by simp only [vectorPrefix, hxop]) (by simp only [decodeEscape, hxop])
        (decodeXop_isSome buf s) fun _ => decodeXop_takes
    by_cases hmevex : op.toNat = 0x62
    · exact hvector hmap (by simp only [vectorPrefix, hmevex]) (by simp only [decodeEscape, hmevex])
        (decodeMevex_isSome buf s) fun _ => decodeMevex_takes
    by_cases hvex3 : op.toNat = 0xc4
    · exact hvector hmap (by simp only [vectorPrefix, hvex3]) (by simp only [decodeEscape, hvex3])
        (decodeVex3_isSome buf s) fun _ => decodeVex3_takes
    by_cases hvex2 : op.toNat = 0xc5
    · exact hvector hmap (by simp only [vectorPrefix, hvex2]) (by simp only [decodeEscape, hvex2])
        (decodeVex2_isSome buf s) fun _ => decodeVex2_takes
    have hmap' : op.toNat ≠ 0x0f := fun h => hmap (UInt8.toNat_inj.mp h)
    refine .inl ⟨hmap, ?_, ?_⟩
    · have hnone : vectorPrefix s.diagram.longMode op = none := by
        unfold vectorPrefix
        split <;> simp_all
      simp only [vectorWidth, hop, Option.bind_some, hnone]
    · unfold decodeEscape
      split <;> simp_all

end Amed.X86
