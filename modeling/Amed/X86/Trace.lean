import Amed.X86.Decoder

/-!
# What the decoder consumes

A step of the decoder moves the byte counter over a list of fields of the input and
records each of them. `Consumes` states that for any two states, and composes; every
function of the decoder that steps over bytes it has checked satisfies it.

## Implementation notes

Only the byte counter and the bytecode record take part, so the relation is one on
cursors and a change of any other member of the state is invisible to it by `rfl`.
-/

namespace Amed.X86

open Bytes

/-- The byte counter and the bytecode record. -/
structure Cursor where
  pc : Nat
  log : BytecodeLog

def Internal.cursor (s : Internal) : Cursor := ⟨s.pc, s.insn.x86.log⟩

@[simp] theorem Internal.cursor_pc (s : Internal) : s.cursor.pc = s.pc := rfl

@[simp] theorem Internal.cursor_log (s : Internal) : s.cursor.log = s.insn.x86.log := rfl

@[simp] theorem Internal.modifyArgument_cursor (s : Internal) (i : Nat)
    (f : Argument → Argument) : (s.modifyArgument i f).cursor = s.cursor := rfl

/-- The bytes of a record entry in the order of the input: a two-byte map escape is
recorded as a word with its bytes exchanged. -/
def inputBytes (f : Bytecode) : List UInt8 :=
  if f.type = .map then f.bytes.reverse else f.bytes

@[simp] theorem inputBytes_length (f : Bytecode) : (inputBytes f).length = f.bytes.length := by
  unfold inputBytes
  split <;> simp

/-- The number of bytes a list of fields covers. -/
def width (fs : List Bytecode) : Nat := (fs.map fun f => f.bytes.length).sum

@[simp] theorem width_nil : width [] = 0 := rfl

@[simp] theorem width_cons (f : Bytecode) (fs : List Bytecode) :
    width (f :: fs) = f.bytes.length + width fs := by
  simp [width]

@[simp] theorem width_append (fs gs : List Bytecode) : width (fs ++ gs) = width fs + width gs := by
  simp [width]

theorem flatten_inputBytes_length (fs : List Bytecode) :
    (fs.map inputBytes).flatten.length = width fs := by
  induction fs with
  | nil => rfl
  | cons f fs ih => simp [ih]

/-- From one cursor to another the decoder has stepped over the fields `fs`, which lie
inside the buffer, one behind the other, and has offered each of them to the record. -/
structure Consumes (buf : Buffer) (c c' : Cursor) (fs : List Bytecode) : Prop where
  pc : c'.pc = c.pc + width fs
  bound : fs ≠ [] → c'.pc ≤ buf.nb
  log : c'.log = fs.foldl BytecodeLog.add c.log
  spells : Spells buf.address c.pc (fs.map inputBytes)

namespace Consumes

variable {buf : Buffer} {c c' c'' : Cursor} {fs gs : List Bytecode}

theorem refl (buf : Buffer) (c : Cursor) : Consumes buf c c [] :=
  ⟨rfl, fun h => absurd rfl h, rfl, spells_nil _ _⟩

theorem trans (h : Consumes buf c c' fs) (h' : Consumes buf c' c'' gs) :
    Consumes buf c c'' (fs ++ gs) where
  pc := by rw [h'.pc, h.pc, width_append, Nat.add_assoc]
  bound := by
    intro hne
    by_cases hg : gs = []
    · subst hg
      have hpc : c''.pc = c'.pc := by simpa using h'.pc
      rw [hpc]
      exact h.bound (by simpa using hne)
    · exact h'.bound hg
  log := by rw [h'.log, h.log, List.foldl_append]
  spells := by
    rw [List.map_append, spells_append, flatten_inputBytes_length, ← h.pc]
    exact ⟨h.spells, h'.spells⟩

/-- The counter stays inside the buffer. -/
theorem pc_le (h : Consumes buf c c' fs) (hc : c.pc ≤ buf.nb) : c'.pc ≤ buf.nb := by
  by_cases hf : fs = []
  · subst hf
    simpa [h.pc] using hc
  · exact h.bound hf

theorem le_pc (h : Consumes buf c c' fs) : c.pc ≤ c'.pc := by
  rw [h.pc]
  exact Nat.le_add_right _ _

/-- Behind the end of the buffer nothing is consumed. -/
theorem eq_nil_of_outside (h : Consumes buf c c' fs) (hc : buf.nb < c.pc) : fs = [] := by
  by_contra hf
  exact absurd (Nat.lt_of_lt_of_le hc (h.le_pc.trans (h.bound hf))) (Nat.lt_irrefl _)

end Consumes

/-! ## Reads -/

theorem peekByte_eq_some {buf : Buffer} {pc : Nat} {b : UInt8} :
    buf.peekByte pc = some b ↔ pc + 1 ≤ buf.nb ∧ b = buf.address pc := by
  unfold Buffer.peekByte
  split <;> simp [eq_comm] <;> omega

theorem peekByte_eq_none {buf : Buffer} {pc : Nat} :
    buf.peekByte pc = none ↔ buf.nb < pc + 1 := by
  unfold Buffer.peekByte
  split <;> simp <;> omega

theorem peekBytes_eq_some {buf : Buffer} {pc n : Nat} {bs : List UInt8} :
    buf.peekBytes pc n = some bs ↔ pc + n ≤ buf.nb ∧ bs = slice buf.address pc n := by
  unfold Buffer.peekBytes
  split <;> simp [eq_comm] <;> omega

/-- A read inside the buffer does not wrap the byte counter. -/
theorem advance_pc {buf : Buffer} {s : Internal} {n : Nat} (h : s.pc + n ≤ buf.nb) :
    (s.advance n).pc = s.pc + n :=
  Nat.mod_eq_of_lt (Nat.lt_of_le_of_lt h buf.nb_lt)

/-- Stepping over the next bytes of the buffer and recording them consumes one field. -/
theorem consumes_advance (buf : Buffer) {s : Internal} {f : Bytecode}
    (hin : s.pc + f.bytes.length ≤ buf.nb)
    (hf : inputBytes f = slice buf.address s.pc f.bytes.length) :
    Consumes buf s.cursor ((s.advance f.bytes.length).addBytecode f.type f.bytes).cursor [f] where
  pc := by
    change (s.pc + f.bytes.length) % 256 = _
    rw [Nat.mod_eq_of_lt (Nat.lt_of_le_of_lt hin buf.nb_lt)]
    simp
  bound := fun _ => by
    change (s.pc + f.bytes.length) % 256 ≤ _
    rwa [Nat.mod_eq_of_lt (Nat.lt_of_le_of_lt hin buf.nb_lt)]
  log := rfl
  spells := by simpa [Spells] using hf

theorem takeBytes_eq_some {buf : Buffer} {s s' : Internal} {type : BytecodeType} {n : Nat}
    {bs : List UInt8} :
    s.takeBytes buf type n = some (bs, s') ↔
      s.pc + n ≤ buf.nb ∧ bs = slice buf.address s.pc n ∧
        s' = (s.advance n).addBytecode type bs := by
  unfold Internal.takeBytes
  cases hp : buf.peekBytes s.pc n with
  | none =>
      simp only [Buffer.peekBytes, ite_eq_left_iff, reduceCtorEq, imp_false, not_not] at hp
      simp
      omega
  | some bytes =>
      obtain ⟨hin, rfl⟩ := peekBytes_eq_some.mp hp
      simp only [Option.some.injEq, Prod.mk.injEq, hin, true_and]
      constructor
      · rintro ⟨rfl, rfl⟩
        exact ⟨rfl, rfl⟩
      · rintro ⟨rfl, rfl⟩
        exact ⟨rfl, rfl⟩

theorem takeBytes_eq_none {buf : Buffer} {s : Internal} {type : BytecodeType} {n : Nat} :
    s.takeBytes buf type n = none ↔ buf.nb < s.pc + n := by
  unfold Internal.takeBytes Buffer.peekBytes
  split <;> simp_all

/-- A successful read consumes one field. -/
theorem takeBytes_consumes {buf : Buffer} {s s' : Internal} {type : BytecodeType} {n : Nat}
    {bs : List UInt8} (h : s.takeBytes buf type n = some (bs, s')) (htype : type ≠ .map) :
    Consumes buf s.cursor s'.cursor [⟨type, bs⟩] := by
  obtain ⟨hin, rfl, rfl⟩ := takeBytes_eq_some.mp h
  have hc := consumes_advance buf (s := s) (f := ⟨type, slice buf.address s.pc n⟩)
    (by simpa using hin) (by simp [inputBytes, htype])
  simpa using hc

theorem takeBytes_length {buf : Buffer} {s s' : Internal} {type : BytecodeType} {n : Nat}
    {bs : List UInt8} (h : s.takeBytes buf type n = some (bs, s')) : bs.length = n := by
  obtain ⟨_, rfl, _⟩ := takeBytes_eq_some.mp h
  simp

end Amed.X86
