import Amed.AArch32.Excerpt
import Amed.AArch32.Outcome
import Amed.AArch64.Excerpt
import Amed.AArch64.Outcome
import Amed.X86.Bytecodes
import Amed.X86.Excerpt

/-!
# Decoding one instruction after the other

`amed_decode_insn` and the loop around it: when the length of an instruction lies inside what is
left of the buffer, and what a run of the loop then consumes.

## Implementation notes

The memory a decoder does not initialise may differ in every round, as may the record the caller
passes. The x86 decoder counts in a byte, so a buffer of 256 bytes looks empty to it.
-/

namespace Amed

/-- The tables of the three decoders. -/
structure Tables where
  x86 : X86.Db
  aarch32 : AArch32.Db
  aarch64 : AArch64.Db

/-- What a decoder finds in its own memory and in the record of the caller. -/
structure Memory where
  x86 : X86.Internal
  aarch32 : AArch32.Internal
  aarch64 : Argument
  insn : Insn

variable (tables : Tables) (ctx : Context) (memory : Memory)

/-- `amed_decode_insn`, with the context it leaves. -/
def decodeInsn : Bool × Insn × Context :=
  match ctx.architecture with
  | .none => (false, memory.insn, ctx)
  | .x86 =>
      let r := X86.decodeInsn tables.x86 ctx memory.x86 memory.insn
      (r.1, r.2, ctx)
  | .aarch32 => AArch32.decodeInsn tables.aarch32 ctx memory.aarch32 memory.insn
  | .aarch64 =>
      let r := AArch64.decodeInsn tables.aarch64 ctx memory.aarch64 memory.insn
      (r.1, r.2, ctx)

/-- A decoded instruction is not empty and lies inside the buffer. -/
def Bounded : Prop :=
  (decodeInsn tables ctx memory).1 = true →
    1 ≤ (decodeInsn tables ctx memory).2.1.length ∧
      ((decodeInsn tables ctx memory).2.1.length : Int) ≤ ctx.length

/-! ## One instruction -/

/-- No accepted template steps over a ModRM byte behind the buffer: it would end one byte behind
it, or at the start again when the counter wraps and the operands read nothing. -/
def ModrmInside (db : X86.Db) (ctx : Context) (stale : X86.Internal) (insn : Insn) : Prop :=
  ∀ s, X86.accepted db ctx stale insn = some s →
    X86.ModrmMissing db (X86.contextBuffer ctx) s →
      if (X86.contextBuffer ctx).nb < 255 then 256 ≤ ctx.length
      else (X86.operandWidths db (X86.contextBuffer ctx) s).sum ≠ 0

/-- The buffer holds what the decoder of the architecture reads without a check. -/
def InsideBuffer : Prop :=
  match ctx.architecture with
  | .none | .aarch32 => True
  | .x86 => ModrmInside tables.x86 ctx memory.x86 memory.insn
  | .aarch64 => ctx.length = 0 ∨ 4 ≤ ctx.length ∨ ¬AArch64.MatchesLookup tables.aarch64 ctx

theorem lengthX86_iff {db : X86.Db} {ctx : Context} {stale s : X86.Internal} {insn : Insn}
    (hlen : 0 ≤ ctx.length) (h : X86.accepted db ctx stale insn = some s) :
    (1 ≤ (X86.decodeInsn db ctx stale insn).2.length ∧
        ((X86.decodeInsn db ctx stale insn).2.length : Int) ≤ ctx.length) ↔
      (X86.ModrmMissing db (X86.contextBuffer ctx) s →
        if (X86.contextBuffer ctx).nb < 255 then 256 ≤ ctx.length
        else (X86.operandWidths db (X86.contextBuffer ctx) s).sum ≠ 0) := by
  have ho := X86.accepted_opened h
  have hnb := X86.contextBuffer_nb_le hlen
  rw [X86.decodeInsn_of_accepted h]
  by_cases hm : X86.ModrmMissing db (X86.contextBuffer ctx) s
  · obtain ⟨hshort, hfull⟩ := X86.length_of_missing ho rfl hm
    simp only [hm, true_imp_iff]
    split
    · rename_i hlt
      rw [hshort hlt]
      have hmod : (X86.contextBuffer ctx).nb = (ctx.length % 256).toNat := rfl
      omega
    · have heq : (X86.contextBuffer ctx).nb = 255 := by
        have hbyte := (X86.contextBuffer ctx).nb_lt
        omega
      obtain ⟨hsum, hle⟩ := hfull heq
      rw [← hsum]
      omega
  · obtain ⟨hpos, hle⟩ := X86.length_of_present ho rfl hm
    have hin : ((X86.decodeSelected db (X86.contextBuffer ctx) s).pc : Int) ≤ ctx.length := by omega
    exact iff_of_true ⟨hpos, hin⟩ fun hmiss => absurd hmiss hm

theorem boundedX86_iff (hlen : 0 ≤ ctx.length) (harch : ctx.architecture = .x86) :
    Bounded tables ctx memory ↔ ModrmInside tables.x86 ctx memory.x86 memory.insn := by
  simp only [Bounded, decodeInsn, harch, X86.decodeInsn_fst]
  constructor
  · intro h s hs
    rw [hs] at h
    exact (lengthX86_iff hlen hs).mp (h rfl)
  · intro h hsome
    obtain ⟨s, hs⟩ := Option.isSome_iff_exists.mp hsome
    exact (lengthX86_iff hlen hs).mpr (h s hs)

/-- The fetch of the AArch32 decoder checks the length. -/
theorem fetchAArch32_inside {ctx : Context} {isa : AArch32.Isa} {opcode : BitVec 32}
    (hlen : 0 ≤ ctx.length) (h : AArch32.fetchOpcode ctx = some (isa, opcode)) :
    1 ≤ AArch32.Isa.length isa ∧ (AArch32.Isa.length isa : Int) ≤ ctx.length := by
  have hshort {n : Nat} (hn : ¬AArch32.shorterThan ctx n = true) : (n : Int) ≤ ctx.length := by
    simpa [AArch32.shorterThan, hlen] using hn
  unfold AArch32.fetchOpcode at h
  split at h
  · split at h
    · cases h
    · cases h
      exact ⟨by decide, hshort ‹_›⟩
  · split at h
    · cases h
    · split at h
      · cases h
        exact ⟨by decide, hshort ‹_›⟩
      · split at h
        · cases h
        · cases h
          exact ⟨by decide, hshort ‹_›⟩
  · cases h

theorem insideAArch32 {db : AArch32.Db} {ctx : Context} {stale : AArch32.Internal}
    {insn : Insn} (hlen : 0 ≤ ctx.length) (hok : (AArch32.decodeInsn db ctx stale insn).1 = true) :
    1 ≤ (AArch32.decodeInsn db ctx stale insn).2.1.length ∧
      ((AArch32.decodeInsn db ctx stale insn).2.1.length : Int) ≤ ctx.length := by
  unfold AArch32.decodeInsn at hok ⊢
  split at hok
  · cases hok
  · rename_i hzero
    rw [if_neg hzero]
    split at hok
    · cases hok
    · rename_i isa opcode hfetch
      dsimp only
      rw [AArch32.decodeFetched_length]
      exact fetchAArch32_inside hlen hfetch

theorem boundedAArch64_iff (harch : ctx.architecture = .aarch64) :
    Bounded tables ctx memory ↔
      ctx.length = 0 ∨ 4 ≤ ctx.length ∨ ¬AArch64.MatchesLookup tables.aarch64 ctx := by
  simp only [Bounded, decodeInsn, harch]
  by_cases hok : ctx.length ≠ 0 ∧ AArch64.MatchesLookup tables.aarch64 ctx
  · obtain ⟨hzero, hmatch⟩ := hok
    have hfst : (AArch64.decodeInsn tables.aarch64 ctx memory.aarch64 memory.insn).1 = true := by
      rw [AArch64.decodeInsn_fst, decide_eq_true_eq]
      exact ⟨hzero, hmatch⟩
    rw [AArch64.decodeInsn_length _ _ _ _ hfst]
    simp only [hfst, hzero, hmatch, not_true_eq_false, or_false, false_or, true_imp_iff]
    exact and_iff_right (by decide)
  · have hfst : (AArch64.decodeInsn tables.aarch64 ctx memory.aarch64 memory.insn).1 = false := by
      rw [AArch64.decodeInsn_fst, decide_eq_false_iff_not]
      exact hok
    simp only [hfst, Bool.false_eq_true, false_imp_iff, true_iff]
    tauto

/-- One call stays inside the buffer exactly where nothing is read behind it without a check. -/
theorem bounded_iff (hlen : 0 ≤ ctx.length) :
    Bounded tables ctx memory ↔ InsideBuffer tables ctx memory := by
  unfold InsideBuffer
  split
  · rename_i harch
    simp [Bounded, decodeInsn, harch]
  · rename_i harch
    simp only [Bounded, decodeInsn, harch, iff_true]
    exact insideAArch32 hlen
  · rename_i harch
    exact boundedX86_iff tables ctx memory hlen harch
  · rename_i harch
    exact boundedAArch64_iff tables ctx memory harch

/-! ## The loop -/

/-- `address += length; length -= length`. -/
def Context.advance (ctx : Context) (n : Nat) : Context :=
  { ctx with address := fun i => ctx.address (n + i), length := ctx.length - n }

/-- The context behind one round of the loop. -/
def roundContext : Context :=
  (decodeInsn tables ctx memory).2.2.advance (decodeInsn tables ctx memory).2.1.length

/-- A decoder leaves the address and the length of the context to the loop. -/
theorem decodeInsn_context :
    (decodeInsn tables ctx memory).2.2.address = ctx.address ∧
      (decodeInsn tables ctx memory).2.2.length = ctx.length := by
  unfold decodeInsn
  split
  · exact ⟨rfl, rfl⟩
  · exact ⟨rfl, rfl⟩
  · unfold AArch32.decodeInsn
    split
    · exact ⟨rfl, rfl⟩
    · split
      · exact ⟨rfl, rfl⟩
      · dsimp only
        rw [AArch32.decodeFetched_context]
        exact ⟨rfl, rfl⟩
  · exact ⟨rfl, rfl⟩

/-- `n` rounds of the loop, which consume `consumed` bytes, none of them read behind the buffer. -/
inductive Rounds : Context → Nat → Nat → Context → Prop
  | start (ctx : Context) : Rounds ctx 0 0 ctx
  | round {ctx ctx' : Context} {n consumed : Nat} (memory : Memory)
      (hok : (decodeInsn tables ctx memory).1 = true)
      (hinside : InsideBuffer tables ctx memory)
      (rest : Rounds (roundContext tables ctx memory) n consumed ctx') :
      Rounds ctx (n + 1) ((decodeInsn tables ctx memory).2.1.length + consumed) ctx'

/-- Where a run of the loop stands: inside the buffer, a byte further at least in every round. -/
structure LoopSafe (ctx : Context) (n consumed : Nat) (ctx' : Context) : Prop where
  address : ctx'.address = fun i => ctx.address (consumed + i)
  length : ctx'.length = ctx.length - consumed
  remaining : 0 ≤ ctx'.length
  progress : n ≤ consumed

/-- What one round does to a run behind it. -/
theorem LoopSafe.round {memory : Memory} {ctx' : Context} {n consumed : Nat}
    (hok : (decodeInsn tables ctx memory).1 = true) (hbounded : Bounded tables ctx memory)
    (hrest : 0 ≤ (roundContext tables ctx memory).length →
      LoopSafe (roundContext tables ctx memory) n consumed ctx') :
    LoopSafe ctx (n + 1) ((decodeInsn tables ctx memory).2.1.length + consumed) ctx' := by
  obtain ⟨hpos, hle⟩ := hbounded hok
  obtain ⟨haddress, hlength⟩ := decodeInsn_context tables ctx memory
  have hround : (roundContext tables ctx memory).length =
      ctx.length - (decodeInsn tables ctx memory).2.1.length := by
    rw [← hlength]
    rfl
  obtain ⟨haddress', hlength', hremaining, hprogress⟩ := hrest (by omega)
  refine ⟨?_, ?_, hremaining, by omega⟩
  · rw [haddress']
    funext i
    simp only [roundContext, Context.advance, haddress, Nat.add_assoc]
  · rw [hlength', hround]
    omega

theorem Rounds.safe {ctx ctx' : Context} {n consumed : Nat} (h : Rounds tables ctx n consumed ctx')
    (hlen : 0 ≤ ctx.length) : LoopSafe ctx n consumed ctx' := by
  induction h with
  | start ctx => exact ⟨by simp, by simp, hlen, le_refl 0⟩
  | @round ctx ctx' n consumed memory hok hinside rest ih =>
      have hbounded := (bounded_iff tables ctx memory hlen).mpr hinside
      exact LoopSafe.round tables ctx hok hbounded ih

/-- A call stays inside the buffer exactly where it reads nothing behind it without a check, and a
loop of such calls stays inside the buffer and ends after at most as many rounds as it has bytes. -/
theorem decodeLoop_safe (tables : Tables) (ctx : Context) (hlen : 0 ≤ ctx.length) :
    (∀ memory, Bounded tables ctx memory ↔ InsideBuffer tables ctx memory) ∧
      ∀ n consumed ctx', Rounds tables ctx n consumed ctx' →
        LoopSafe ctx n consumed ctx' ∧ (n : Int) ≤ ctx.length := by
  refine ⟨fun memory => bounded_iff tables ctx memory hlen, ?_⟩
  intro n consumed ctx' h
  have hsafe := h.safe tables hlen
  have hlength := hsafe.length
  have hremaining := hsafe.remaining
  have hprogress := hsafe.progress
  exact ⟨hsafe, by omega⟩

/-- The excerpts of the three tables. -/
def excerpts : Tables where
  x86 := X86.Excerpt.tables
  aarch32 := AArch32.Excerpt.tables
  aarch64 := AArch64.Excerpt.tables

/-- Memory that holds zeros. -/
def blankMemory : Memory where
  x86 := default
  aarch32 := AArch32.Excerpt.blank
  aarch64 := default
  insn := default

/-- `DUP (element)` in a buffer of four bytes. -/
theorem decodeLoop_dup :
    Bounded excerpts (AArch64.Excerpt.contextOf 0x2c 0x05 0x08 0x5e 4 false) blankMemory :=
  ((decodeLoop_safe excerpts (AArch64.Excerpt.contextOf 0x2c 0x05 0x08 0x5e 4 false)
    (by decide)).1 blankMemory).mpr (Or.inr (Or.inl (by decide)))

/-- `DUP (element)` in a buffer of which one byte is left. -/
theorem not_decodeLoop_dup :
    ¬∀ (tables : Tables) (ctx : Context) (memory : Memory), 0 ≤ ctx.length →
      Bounded tables ctx memory := by
  intro h
  have hbounded := h excerpts (AArch64.Excerpt.contextOf 0x2c 0x05 0x08 0x5e 1 false) blankMemory
    (by decide) (by decide)
  exact absurd hbounded.2 (by decide)

end Amed
