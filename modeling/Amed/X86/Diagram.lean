import Amed.X86.Db

/-!
# The decoder's working state

`x86_diagram` and `x86_internal` of the x86 decoder, the recording of bytecodes
and the reads of the input bytes.

## Implementation notes

The members of `x86_internal` that are set once, before decoding starts, and
only read afterwards (`address`, `nb`) form the record `Buffer`. A pointer to an
argument is the index of its slot. `int` and bitfield members that the code keeps
in range are plain numbers; `pc` wraps at 256 as the 8-bit counter does.
-/

namespace Amed.X86

open Bytes

def encodingNone : Nat := 0
def encodingVex : Nat := 1
def encodingEvex : Nat := 2
def encodingMvex : Nat := 3
def encodingXop : Nat := 4

def prefixF2 : Nat := 1
def prefixF3 : Nat := 2

def mapIdx0F : Nat := 256
def mapIdx0F0F : Nat := 512
def mapIdx0F38 : Nat := 768
def mapIdx0F3A : Nat := 1024
def mapIdxXop8 : Nat := 1280
def mapIdxXop9 : Nat := 1536
def mapIdxXopA : Nat := 1792

/-- `x86_diagram`. The members up to `features` share the word `hashcode`. -/
structure Diagram where
  modreg : Bool
  reg : Nat
  cr : Bool
  rm : Nat
  len : Nat
  yosz : Bool
  zosz : Bool
  f2 : Bool
  f3 : Bool
  p66 : Bool
  fb : Bool
  enc : Nat
  e : Bool
  asz : Nat
  yasz : Bool
  longMode : Bool
  w : Bool
  features : Nat
  disp : Int
  aaa : Nat
  vvvv : Nat
  scale : Nat
  base : Nat
  index : Nat
  is4 : UInt8
  mod : Nat
  osz : Nat
  vl : Nat
  ll : Nat
  sss : Nat
  opcode : UInt8
  hasModrm : Bool
  hasSib : Bool
  hasDisp : Bool
  hasIs4 : Bool
  hasRex : Bool
  r : Bool
  x : Bool
  b : Bool
  rp : Bool
  vp : Bool
  bp : Bool
  z : Bool
  f0 : Bool
  deriving DecidableEq, Repr, Inhabited

/-- The word the bitfields of the diagram spell. -/
def Diagram.hashcode (d : Diagram) : BitVec 32 :=
  BitVec.ofNat 32 (d.modreg.toNat + 2 * d.reg + 16 * d.cr.toNat + 32 * d.rm + 256 * d.len
    + 1024 * d.yosz.toNat + 2048 * d.zosz.toNat + 4096 * d.f2.toNat + 8192 * d.f3.toNat
    + 16384 * d.p66.toNat + 32768 * d.fb.toNat + 65536 * d.enc + 524288 * d.e.toNat
    + 1048576 * d.asz + 4194304 * d.yasz.toNat + 8388608 * d.longMode.toNat
    + 16777216 * d.w.toNat + 33554432 * d.features)

/-- Assigning the word `hashcode` sets every bitfield that shares it. -/
def Diagram.setHashcode (d : Diagram) (h : BitVec 32) : Diagram :=
  let field (pos width : Nat) : Nat := h.toNat / 2 ^ pos % 2 ^ width
  { d with
    modreg := h.getLsbD 0
    reg := field 1 3
    cr := h.getLsbD 4
    rm := field 5 3
    len := field 8 2
    yosz := h.getLsbD 10
    zosz := h.getLsbD 11
    f2 := h.getLsbD 12
    f3 := h.getLsbD 13
    p66 := h.getLsbD 14
    fb := h.getLsbD 15
    enc := field 16 3
    e := h.getLsbD 19
    asz := field 20 2
    yasz := h.getLsbD 22
    longMode := h.getLsbD 23
    w := h.getLsbD 24
    features := field 25 7 }

/-- Assigning 0 to `attributes` clears every flag that shares it. -/
def Diagram.clearAttributes (d : Diagram) : Diagram :=
  { d with
    hasModrm := false, hasSib := false, hasDisp := false, hasIs4 := false, hasRex := false
    r := false, x := false, b := false, rp := false, vp := false, bp := false
    z := false, f0 := false }

/-- The input bytes: `address` and the 8-bit byte count `nb` of `x86_internal`. -/
structure Buffer where
  address : Nat → UInt8
  nb : Nat
  nb_lt : nb < 256

/-- `x86_internal`, less the members of `Buffer`. `encoding` and `ptemplate` are
indices into the tables. -/
structure Internal where
  insn : Insn
  encoding : Nat
  ptemplate : Nat
  vreg : Option Nat
  vmem : Option Nat
  srcReg : Option Nat
  diagram : Diagram
  pc : Nat
  vfpc : Nat
  mapidx : Nat
  segment : Nat
  lastFPrefix : Nat
  baseIp : Nat
  dispDatatype : Datatype
  hasBase : Bool
  hasIndex : Bool
  usesCompressedDisp : Bool
  deriving Inhabited

/-! ## Reading and recording -/

/-- `peek_byte`. -/
def Buffer.peekByte (buf : Buffer) (pc : Nat) : Option UInt8 :=
  if buf.nb < pc + 1 then none else some (buf.address pc)

/-- `peek_bytes`. -/
def Buffer.peekBytes (buf : Buffer) (pc length : Nat) : Option (List UInt8) :=
  if buf.nb < pc + length then none else some (slice buf.address pc length)

/-- Step the 8-bit counter over `n` bytes; `advance_byte` steps over one. -/
def Internal.advance (s : Internal) (n : Nat) : Internal :=
  { s with pc := (s.pc + n) % 256 }

/-- `add_bytecode`; no caller looks at the result. -/
def Internal.addBytecode (s : Internal) (type : BytecodeType) (bytes : List UInt8) : Internal :=
  { s with insn.x86.log := s.insn.x86.log.add ⟨type, bytes⟩ }

/-- Read `n` bytes, step over them and record them as one bytecode. -/
def Internal.takeBytes (buf : Buffer) (s : Internal) (type : BytecodeType) (n : Nat) :
    Option (List UInt8 × Internal) :=
  match buf.peekBytes s.pc n with
  | none => none
  | some bytes => some (bytes, (s.advance n).addBytecode type bytes)

/-- Change the argument in a slot. -/
def Internal.modifyArgument (s : Internal) (i : Nat) (f : Argument → Argument) : Internal :=
  { s with insn := s.insn.setArgument i (f (s.insn.arguments i)) }

end Amed.X86
