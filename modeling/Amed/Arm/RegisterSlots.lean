import Amed.Library.LastWrite
import Amed.Shared.Types

/-!
# The registers among the arguments

What `is_destructive` and `is_constructive` are about: the register arguments of an instruction,
with whether each of them is read and written. A register that is neither stands for any such
register.
-/

namespace Amed.Arm

open LastWrite

/-- The register arguments among the first `count` arguments. -/
def registerArguments (count : Nat) (arguments : Nat → Argument) : List (Access Nat) :=
  ((List.range count).map arguments).filterMap fun a =>
    if a.type = .register then
      some ⟨a.get Cell.regValue, a.attributes.read, a.attributes.write⟩
    else none

/-- An access without its register, where it neither reads nor writes it. -/
def effective (a : Access Nat) : Access Nat :=
  if a.reads || a.writes then a else ⟨0, false, false⟩

@[simp] theorem effective_reads (a : Access Nat) : (effective a).reads = a.reads := by
  obtain ⟨register, reads, writes⟩ := a
  cases reads <;> cases writes <;> rfl

@[simp] theorem effective_writes (a : Access Nat) : (effective a).writes = a.writes := by
  obtain ⟨register, reads, writes⟩ := a
  cases reads <;> cases writes <;> rfl

/-- A register that is read keeps its number, and so does one that is written. -/
theorem effective_of_reads {a : Access Nat} (h : a.reads = true) : effective a = a :=
  if_pos (by rw [h, Bool.true_or])

theorem effective_of_writes {a : Access Nat} (h : a.writes = true) : effective a = a :=
  if_pos (by rw [h, Bool.or_true])

/-- A register that is neither read nor written overlaps none. -/
theorem overlaps_effective (as : List (Access Nat)) :
    Overlaps (as.map effective) ↔ Overlaps as := by
  simp only [Overlaps, List.mem_map, exists_exists_and_eq_and, effective_reads, effective_writes]
  constructor
  · rintro ⟨a, ha, b, hb, hwrites, hreads, hregister⟩
    rw [effective_of_writes hwrites, effective_of_reads hreads] at hregister
    exact ⟨a, ha, b, hb, hwrites, hreads, hregister⟩
  · rintro ⟨a, ha, b, hb, hwrites, hreads, hregister⟩
    refine ⟨a, ha, b, hb, hwrites, hreads, ?_⟩
    rw [effective_of_writes hwrites, effective_of_reads hreads, hregister]

/-- The register of a register argument. -/
def argumentRegister (a : Argument) : Option (Access Nat) :=
  if a.type = .register then
    some (effective ⟨a.get Cell.regValue, a.attributes.read, a.attributes.write⟩)
  else none

theorem argumentRegister_of_type {a : Argument} (h : a.type ≠ .register) :
    argumentRegister a = none := if_neg h

/-- An argument of the old type, without its attributes. -/
theorem argumentRegister_cleared {a old : Argument} (htype : a.type = old.type)
    (hread : a.attributes.read = false) (hwrite : a.attributes.write = false) :
    argumentRegister a = (argumentRegister old).map fun _ => ⟨0, false, false⟩ := by
  unfold argumentRegister
  rw [htype, hread, hwrite]
  split <;> rfl

/-- The slots of an instruction, as far as they hold registers. -/
structure Slots where
  count : Nat
  register : Nat → Option (Access Nat)

/-- The registers below the count. -/
def Slots.registers (l : Slots) : List (Access Nat) := (List.range l.count).filterMap l.register

def Slots.store (l : Slots) (i : Nat) (register : Option (Access Nat)) : Slots :=
  { l with register := fun j => if j = i then register else l.register j }

def slotsOf (insn : Insn) : Slots where
  count := insn.argumentCount
  register := fun i => argumentRegister (insn.arguments i)

/-- Storing an argument stores its register. -/
theorem slotsOf_setArgument (insn : Insn) (i : Nat) (a : Argument) :
    slotsOf (insn.setArgument i a) = (slotsOf insn).store i (argumentRegister a) := by
  unfold slotsOf Slots.store
  refine congrArg (Slots.mk _) (funext fun j => ?_)
  dsimp only [Insn.setArgument]
  split <;> rfl

/-- The slots below the count hold the register arguments. -/
theorem registers_slotsOf (insn : Insn) :
    (slotsOf insn).registers =
      (registerArguments insn.argumentCount insn.arguments).map effective := by
  rw [Slots.registers, registerArguments, List.map_filterMap, List.filterMap_map]
  refine congrArg (List.filterMap · _) (funext fun i => ?_)
  dsimp only [slotsOf, argumentRegister, Function.comp_apply]
  split <;> rfl

/-- A register that neither is read nor written overlaps with none. -/
theorem overlaps_slotsOf (insn : Insn) :
    Overlaps (slotsOf insn).registers ↔
      Overlaps (registerArguments insn.argumentCount insn.arguments) := by
  rw [registers_slotsOf]
  exact overlaps_effective _

end Amed.Arm
