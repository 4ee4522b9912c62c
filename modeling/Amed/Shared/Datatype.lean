import Amed.Shared.Types

/-!
# Datatype helpers

The functions of `utils/datatype.h` on the shared datatype enumeration.
-/

namespace Amed

/-- Size of a datatype in bits; 0 where the datatype fixes none. -/
def getDatatypeSize : Datatype → Nat
  | .i8 | .s8 | .u8 | .p8 => 8
  | .i16 | .s16 | .u16 | .f16 | .bf16 => 16
  | .i32 | .s32 | .u32 | .f32 => 32
  | .i64 | .s64 | .u64 | .f64 | .p64 => 64
  | .f80 | .bcd80 => 80
  | .i128 | .u128 => 128
  | .i256 | .u256 => 256
  | .none | .ix | .sx | .ux | .other _ => 0

def isDatatypeSigned : Datatype → Bool
  | .s8 | .s16 | .s32 | .s64 | .sx => true
  | _ => false

/-- Resolve `sx` and the absent datatype by the operand's size. -/
def getNormalizedDatatype (datatype : Datatype) (size : Nat) : Datatype :=
  match datatype, size with
  | .sx, 8 => .s8
  | .sx, 16 => .s16
  | .sx, 32 => .s32
  | .sx, 64 => .s64
  | .none, 8 => .i8
  | .none, 16 => .i16
  | .none, 32 => .i32
  | .none, 64 => .i64
  | dt, _ => dt

end Amed
