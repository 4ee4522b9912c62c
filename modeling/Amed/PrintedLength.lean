import Amed.AArch32.Decoder
import Amed.AArch32.Printer
import Amed.AArch64.Decoder
import Amed.AArch64.Printer
import Amed.X86.PrintedOperands

/-!
# The length that the printers return

The three print functions return how far their pointer has come from the buffer. The loop that makes
the text lower-case counts the buffer itself up.
-/

namespace Amed

open Printing

/-- One call of one of the three print functions. -/
inductive PrintCall
  | x86 (names : X86.Names) (f : Formatter) (insn : Insn)
  | aarch64 (names : AArch64.Names) (f : Formatter) (insn : Insn)
  | aarch32 (names : AArch32.Names) (f : Formatter) (ctx : Context) (insn : Insn)

namespace PrintCall

/-- The instruction is one that the decoder has accepted. -/
def Decoded : PrintCall → Prop
  | x86 _ _ insn => ∃ db ctx stale insn', (X86.decodeInsn db ctx stale insn').1 = true ∧
      (X86.decodeInsn db ctx stale insn').2 = insn
  | aarch64 _ _ insn => ∃ db ctx stale insn', (AArch64.decodeInsn db ctx stale insn').1 = true ∧
      (AArch64.decodeInsn db ctx stale insn').2 = insn
  | aarch32 _ _ ctx insn => ∃ db stale insn', (AArch32.decodeInsn db ctx stale insn').1 = true ∧
      (AArch32.decodeInsn db ctx stale insn').2.1 = insn

def lowerCase : PrintCall → Bool
  | x86 _ f _ | aarch64 _ f _ | aarch32 _ f _ _ => f.lowerCase

/-- The call, and the same one with the other case. -/
def print : PrintCall → Bool → Memory → Option (Int × Memory)
  | x86 names f insn => fun lower => X86.printInsn names { f with lowerCase := lower } insn
  | aarch64 names f insn => fun lower => AArch64.printInsn names { f with lowerCase := lower } insn
  | aarch32 names f ctx insn =>
      fun lower => AArch32.printInsn names { f with lowerCase := lower } ctx insn

/-- Every number that is printed has a name or fits. -/
def InsnPrints : PrintCall → Prop
  | x86 names _ insn => X86.InsnPrints names insn
  | aarch64 names _ insn => AArch64.InsnPrints names insn
  | aarch32 names _ _ insn => AArch32.InsnPrints names insn

/-- Where the length of the text is returned. -/
theorem print_returnsLength_iff (call : PrintCall) :
    ReturnsLength call.print call.lowerCase ↔ call.lowerCase = false ∧ call.InsnPrints := by
  cases call with
  | x86 names f insn => exact X86.printInsn_returnsLength f.lowerCase
  | aarch64 names f insn => exact AArch64.printInsn_returnsLength f.lowerCase
  | aarch32 names f ctx insn => exact AArch32.printInsn_returnsLength f.lowerCase

open X86.Excerpt in
/-- `jmp` in lower case: 0 is returned. -/
theorem not_returnsLength_jmp :
    ¬∀ call : PrintCall, call.Decoded → ReturnsLength call.print call.lowerCase := by
  intro h
  let insn := (X86.decodeInsn jmpTables jmpContext default default).2
  have hreturns := h (.x86 jmpNames ⟨false, false, true⟩ insn)
    ⟨jmpTables, jmpContext, default, default, by decide +kernel, rfl⟩
  exact Bool.noConfusion ((X86.printInsn_returnsLength true).mp hreturns).1

end PrintCall

end Amed
