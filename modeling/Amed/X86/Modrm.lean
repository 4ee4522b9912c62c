import Amed.X86.Prefix

/-!
# ModRM, SIB and displacement

`decode_modrm` and the functions it calls, and the EVEX displacement scale.
-/

namespace Amed.X86

open Bytes

/-- `get_evex_disp8_n`. -/
def getEvexDisp8N (tuple : Tuple) (d : Diagram) : Nat :=
  let byVl (n : List Nat) : Nat := n.getD d.vl 0
  match tuple with
  | .fv => if d.bp then (if d.w then 8 else 4) else byVl [16, 32, 64]
  | .hv => if d.b then 4 else byVl [8, 16, 32]
  | .t1s8 => 1
  | .t1s16 => 2
  | .t1s => if d.w then 8 else 4
  | .t1f32 => 4
  | .t1f64 => 8
  | .t2 => if d.w then 16 else 8
  | .t4 => if d.w then 32 else 16
  | .t8 => 32
  | .fvm => byVl [16, 32, 64]
  | .hvm => byVl [8, 16, 32]
  | .qvm => byVl [4, 8, 16]
  | .ovm => byVl [2, 4, 8]
  | .m128 => 16
  | .dup => byVl [8, 32, 64]
  | .none => 1

/-- The switch of `decode_disp` on the length, for the raw displacement `disp`. -/
def setDisp (db : Db) (s : Internal) (disp : Int) : Nat → Option Internal
  | 1 =>
      let evex := disp ≠ 0 ∧ s.diagram.enc = encodingEvex
      let compressed := disp ≠ 0 ∧ (s.diagram.enc = encodingEvex ∨ s.diagram.enc = encodingMvex)
      let n := getEvexDisp8N (db.templates s.ptemplate).tuple s.diagram
      some { s with
        usesCompressedDisp := s.usesCompressedDisp || compressed
        dispDatatype := if compressed then .s16 else .s8
        diagram := { s.diagram with disp := if evex then disp * n else disp, hasDisp := true } }
  | 2 =>
      some { s with
        dispDatatype := .s16
        diagram := { s.diagram with disp := disp, hasDisp := true } }
  | 4 =>
      some { s with
        dispDatatype := .s32
        diagram := { s.diagram with disp := disp, hasDisp := true } }
  | _ => none

/-- `decode_disp`. -/
def decodeDisp (db : Db) (buf : Buffer) (s : Internal) (length : Nat) : Option Internal :=
  match s.takeBytes buf .disp length with
  | none => none
  | some (bytes, s) => setDisp db s (toSigned (8 * length) (leNat bytes)) length

/-- A displacement that is read when its length is not 0. -/
def readDisp (db : Db) (buf : Buffer) (s : Internal) (length : Nat) : Bool × Internal :=
  if length = 0 then (true, s)
  else
    match decodeDisp db buf s length with
    | none => (false, s)
    | some s => (true, s)

/-- The displacement `decode_sib` reads: only with base 5, by the mod field. -/
def sibDispLength (mod base : Nat) : Nat :=
  if base = 5 then
    match mod with
    | 0 => 4
    | 1 => 1
    | 2 => 4
    | _ => 0
  else 0

/-- `decode_sib`. -/
def decodeSib (db : Db) (buf : Buffer) (s : Internal) : Bool × Internal :=
  match s.takeBytes buf .sib 1 with
  | some ([sib], s) =>
      let base := bits sib 0 3
      let index := bits sib 3 3
      let s := { s with
        diagram := { s.diagram with
          index := index, base := base, scale := 2 ^ bits sib 6 2, hasSib := true }
        hasIndex := s.diagram.enc ≠ encodingNone || !(!s.diagram.x && index = 4)
        hasBase := s.hasBase && !(base = 5 && s.diagram.mod = 0) }
      readDisp db buf s (sibDispLength s.diagram.mod base)
  | _ => (false, s)

/-- `set_modrm_field`. -/
def Internal.setModrmField (s : Internal) (modrm : UInt8) : Internal :=
  { s with
    diagram := { s.diagram with
      mod := bits modrm 6 2
      reg := bits modrm 3 3
      rm := bits modrm 0 3
      modreg := bits modrm 6 2 = 3
      cr := bits modrm 3 3 ≠ 0 } }

/-- The byte `decode_modrm` puts together from the diagram. -/
def Diagram.modrmByte (d : Diagram) : UInt8 :=
  UInt8.ofNat (64 * d.mod + 8 * d.reg + d.rm)

/-- The displacement `decode_modrm` reads after the SIB byte. -/
def modrmDispSize (mod rm : Nat) : Nat :=
  match mod with
  | 0 => if rm = 5 then 4 else 0
  | 1 => 1
  | 2 => 4
  | _ => 0

/-- The head of `decode_modrm`. It steps over the ModRM byte without a check of the
buffer. -/
def beginModrm (s : Internal) : Internal :=
  let ripBase : Bool := s.diagram.mod = 0 && s.diagram.rm = 5
  let hasBase : Bool := !ripBase || s.diagram.longMode && s.diagram.asz ≠ 0
  { (s.advance 1).addBytecode .modrm [s.diagram.modrmByte] with
    hasBase := hasBase
    baseIp :=
      if ripBase && hasBase then
        [Register.ip, Register.eip, Register.rip].getD s.diagram.asz Register.none
      else Register.none
    dispDatatype := .none
    diagram := { s.diagram with disp := 0 } }

/-- `decode_modrm`. -/
def decodeModrm (db : Db) (buf : Buffer) (s : Internal) : Bool × Internal :=
  let mod := s.diagram.mod
  let rm := s.diagram.rm
  let s := beginModrm s
  match (if mod ≠ 3 ∧ rm = 4 then decodeSib db buf s else (true, s)) with
  | (false, s) => (false, s)
  | (true, s) =>
      match readDisp db buf s (modrmDispSize mod rm) with
      | (false, s) => (false, s)
      | (true, s) => (true, { s with diagram.hasModrm := true })

end Amed.X86
