import Amed.Library.Loop
import Amed.X86.Diagram

/-!
# Prefixes, vector prefixes and opcode maps

The prefix loop of `decode_entry` and the functions it calls.

## Implementation notes

A prefix function that refuses its bytes returns before it has written anything,
so its result is an option and a refusal leaves the caller with the old state.
Every pass of the loop steps over one byte of the buffer, so the byte count bounds
the passes.
-/

namespace Amed.X86

open Bytes

/-- `set_pp_field`. -/
def Diagram.setPpField (d : Diagram) (value : Nat) : Diagram :=
  match value with
  | 1 => { d with p66 := true }
  | 2 => { d with f3 := true }
  | 3 => { d with f2 := true }
  | _ => d

/-- `set_ll_field`; its callers pass at most 3. -/
def Diagram.setLlField (d : Diagram) (value : Nat) : Diagram :=
  match value with
  | 0 => { d with vl := 0, ll := 0 }
  | 1 => { d with vl := 1, ll := 1 }
  | 2 => { d with vl := 2, ll := 2 }
  | 3 => { d with vl := 2, ll := 3 }
  | _ => d

/-- `set_mmmmm_field`: the map an opcode map field selects. -/
def mmmmmField (value : Nat) : Option Nat :=
  match value with
  | 1 => some mapIdx0F
  | 2 => some mapIdx0F38
  | 3 => some mapIdx0F3A
  | _ => none

/-- `set_w_field`. -/
def Diagram.setWField (d : Diagram) (value : Bool) : Diagram :=
  { d with w := value, osz := if value then 2 else d.osz }

/-- `decode_rex`. -/
def decodeRex (buf : Buffer) (s : Internal) : Option Internal :=
  if !s.diagram.longMode then none
  else
    match s.takeBytes buf .rex 1 with
    | some ([rex], s) =>
        let d := { s.diagram with
          fb := bit rex 0, b := bit rex 0, x := bit rex 1, r := bit rex 2, hasRex := true }
        some { s with diagram := d.setWField (bit rex 3), vfpc := (s.vfpc + 1) % 256 }
    | _ => none

/-- `decode_vex2`. -/
def decodeVex2 (buf : Buffer) (s : Internal) : Option Internal :=
  match s.takeBytes buf .vex2 2 with
  | some ([_, byte1], s) =>
      -- outside long mode R must be set, otherwise the bytes are LES or LDS
      if !s.diagram.longMode && !bit byte1 7 then none
      else
        let d := (s.diagram.setPpField (bits byte1 0 2)).setLlField (bits byte1 2 1)
        some { s with
          mapidx := mapIdx0F
          diagram := { d with
            enc := encodingVex, hasRex := true, r := !bit byte1 7
            vvvv := 15 - bits byte1 3 4 } }
  | _ => none

/-- `decode_vex3`. -/
def decodeVex3 (buf : Buffer) (s : Internal) : Option Internal :=
  match s.takeBytes buf .vex3 3 with
  | some ([_, byte1, byte2], s) =>
      if !s.diagram.longMode && !(bit byte1 7 && bit byte1 6 && bit byte1 5) then none
      else
        match mmmmmField (bits byte1 0 5) with
        | none => none
        | some map =>
            let d := ((s.diagram.setWField (bit byte2 7)).setPpField
              (bits byte2 0 2)).setLlField (bits byte2 2 1)
            some { s with
              mapidx := map
              diagram := { d with
                enc := encodingVex, hasRex := true
                r := !bit byte1 7, x := !bit byte1 6, b := !bit byte1 5
                w := bit byte2 7, vvvv := 15 - bits byte2 3 4 } }
  | _ => none

/-- The maps `decode_xop` accepts. -/
def xopMap (value : Nat) : Option Nat :=
  match value with
  | 8 => some mapIdxXop8
  | 9 => some mapIdxXop9
  | 10 => some mapIdxXopA
  | _ => none

/-- `decode_xop`, which records its prefix under the type of a VEX3 prefix. -/
def decodeXop (buf : Buffer) (s : Internal) : Option Internal :=
  match s.takeBytes buf .vex3 3 with
  | some ([_, byte1, byte2], s) =>
      if !s.diagram.longMode && !(bit byte1 7 && bit byte1 6 && bit byte1 5) then none
      else
        match xopMap (bits byte1 0 5) with
        | none => none
        | some map =>
            let d := { s.diagram with
              enc := encodingXop, hasRex := true
              r := !bit byte1 7, x := !bit byte1 6, b := !bit byte1 5
              vvvv := 15 - bits byte2 3 4 }
            some { s with
              mapidx := map
              diagram := (d.setWField (bit byte2 7)).setLlField (bits byte2 2 1) }
  | _ => none

/-- The maps the MVEX branch of `decode_mevex` accepts. -/
def mvexMap (value : Nat) : Option Nat :=
  match value with
  | 0 | 1 => some mapIdx0F
  | 2 => some mapIdx0F38
  | 3 => some mapIdx0F3A
  | _ => none

/-- The MVEX branch of `decode_mevex`. -/
def decodeMvex (s : Internal) (byte1 byte2 byte3 : UInt8) : Option Internal :=
  match mvexMap (bits byte1 0 4) with
  | none => none
  | some map =>
      let d := (s.diagram.setPpField (bits byte2 0 2)).setWField (bit byte2 7)
      some { s with
        mapidx := map
        diagram := { d with
          hasRex := true
          r := !bit byte1 7, x := !bit byte1 6, b := !bit byte1 5, rp := !bit byte1 4
          vp := !bit byte3 3, e := bit byte3 7
          aaa := bits byte3 0 3, vvvv := 15 - bits byte2 3 4, z := false
          sss := bits byte3 4 3, enc := encodingMvex } }

/-- The EVEX branch of `decode_mevex`. -/
def decodeEvex (s : Internal) (byte1 byte2 byte3 : UInt8) : Option Internal :=
  if !s.diagram.longMode && !(bit byte1 7 && bit byte1 6 && bit byte1 5) then none
  else
    match mmmmmField (bits byte1 0 2) with
    | none => none
    | some map =>
        let d := ((s.diagram.setPpField (bits byte2 0 2)).setWField (bit byte2 7)).setLlField
          (bits byte3 5 2)
        some { s with
          mapidx := map
          diagram := { d with
            hasRex := true
            r := !bit byte1 7, x := !bit byte1 6, b := !bit byte1 5, rp := !bit byte1 4
            vp := !bit byte3 3, bp := bit byte3 4, fb := bit byte3 4
            aaa := bits byte3 0 3, vvvv := 15 - bits byte2 3 4, z := bit byte3 7
            enc := encodingEvex } }

/-- `decode_mevex`. Reserved bits that are not as EVEX wants them mean MVEX in long
mode and no prefix elsewhere. -/
def decodeMevex (buf : Buffer) (s : Internal) : Option Internal :=
  match buf.peekBytes s.pc 4 with
  | some [byte0, byte1, byte2, byte3] =>
      if bits byte1 2 2 ≠ 0 ∨ !bit byte2 2 then
        if s.diagram.longMode then
          decodeMvex ((s.advance 4).addBytecode .mvex [byte0, byte1, byte2, byte3])
            byte1 byte2 byte3
        else none
      else
        decodeEvex ((s.advance 4).addBytecode .evex [byte0, byte1, byte2, byte3])
          byte1 byte2 byte3
  | _ => none

/-- The second byte of a two-byte map escape: the map and the recorded word. -/
def secondEscape (op : UInt8) : Option (Nat × Nat) :=
  if op = 0x0f then some (mapIdx0F0F, 0x0f0f)
  else if op = 0x38 then some (mapIdx0F38, 0x0f38)
  else if op = 0x3a then some (mapIdx0F3A, 0x0f3a)
  else none

/-- `decode_map`. The two-byte maps are recorded as a little-endian word. -/
def decodeMap (buf : Buffer) (s : Internal) : Internal :=
  let s := { s with mapidx := mapIdx0F }.advance 1
  match (buf.peekByte s.pc).bind secondEscape with
  | some (map, word) => ({ s with mapidx := map }.advance 1).addBytecode .map (toLe 2 word)
  | none => s.addBytecode .map [0x0f]

/-- `add_segment`. -/
def addSegment (buf : Buffer) (s : Internal) (segment : Nat) : Internal :=
  let op := (buf.peekByte s.pc).getD 0
  let s := (s.advance 1).addBytecode .prefixByte [op]
  { s with
    insn.attributes.isUgly := s.insn.attributes.isUgly || s.segment ≠ 0
    segment := segment }

/-- Step over a prefix byte and record it. -/
def addPrefix (s : Internal) (op : UInt8) : Internal :=
  (s.advance 1).addBytecode .prefixByte [op]

/-- The operand and address sizes a mode starts with. -/
structure DefaultSizes where
  opsize : Nat
  adsize : Nat
  deriving DecidableEq, Repr

def defaultSizes : MachineMode → Option DefaultSizes
  | .mode16 => some ⟨0, 0⟩
  | .mode32 => some ⟨1, 1⟩
  | .mode64 => some ⟨1, 2⟩
  | _ => none

/-- The cases `0x40` to `0x4f` of the prefix switch. -/
def isRexByte (op : UInt8) : Bool := 0x40 ≤ op.toNat && op.toNat ≤ 0x4f

/-- The cases of the prefix switch that lead back to the loop's start. -/
def decodePrefix (buf : Buffer) (df : DefaultSizes) (s : Internal) (op : UInt8) :
    Option Internal :=
  if isRexByte op then decodeRex buf s
  else
    match op.toNat with
    | 0x26 => some (addSegment buf s Register.es)
    | 0x2e => some (addSegment buf s Register.cs)
    | 0x36 => some (addSegment buf s Register.ss)
    | 0x3e => some (addSegment buf s Register.ds)
    | 0x64 => some (addSegment buf s Register.fs)
    | 0x65 => some (addSegment buf s Register.gs)
    | 0x66 =>
        some (addPrefix { s with
          vfpc := (s.vfpc + 1) % 256
          diagram := { s.diagram with p66 := true, osz := df.opsize / 2 } } op)
    | 0x67 => some (addPrefix { s with diagram.asz := df.adsize / 2 } op)
    | 0xf0 =>
        some (addPrefix { s with vfpc := (s.vfpc + 1) % 256, diagram.f0 := true } op)
    | 0xf2 =>
        some (addPrefix { s with
          vfpc := (s.vfpc + 1) % 256, lastFPrefix := prefixF2, diagram.f2 := true } op)
    | 0xf3 =>
        some (addPrefix { s with
          vfpc := (s.vfpc + 1) % 256, lastFPrefix := prefixF3, diagram.f3 := true } op)
    | _ => none

/-- The cases that leave the loop: the 0F map and the vector prefixes. A vector
prefix that is refused leaves its first byte to be read as an opcode. -/
def decodeEscape (buf : Buffer) (s : Internal) (op : UInt8) : Internal :=
  match op.toNat with
  | 0x0f => decodeMap buf s
  | 0x8f => (decodeXop buf s).getD s
  | 0x62 => (decodeMevex buf s).getD s
  | 0xc4 => (decodeVex3 buf s).getD s
  | 0xc5 => (decodeVex2 buf s).getD s
  | _ => s

/-- One pass of the prefix loop: a prefix byte leads back to the start. -/
def prefixStep (buf : Buffer) (df : DefaultSizes) (s : Internal) : Option Internal :=
  (buf.peekByte s.pc).bind (decodePrefix buf df s)

/-- The prefix loop of `decode_entry` and the escape that ends it. -/
def scanPrefixes (buf : Buffer) (df : DefaultSizes) (s : Internal) : Internal :=
  let s := Loop.run (prefixStep buf df) (buf.nb + 1) s
  match buf.peekByte s.pc with
  | none => s
  | some op => decodeEscape buf s op

end Amed.X86
