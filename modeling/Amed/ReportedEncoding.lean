import Amed.Arm.Miss
import Amed.Generator.Names
import Amed.X86.LastF
import Amed.X86.Pipeline

/-!
# The number of the reported encoding

The decoders report where the encoding stands in the array of encodings. The public enumeration has
`NONE` in front of the encodings, so the number they report is that of the encoding before it.
-/

namespace Amed

open Generator

/-- The identifiers of a database with as many encodings as the reported numbers tell apart. -/
structure Numbered (ids : List (List Char)) : Prop where
  nodup : (noneText :: ids).Nodup
  length_le : ids.length ≤ 2 ^ 16

/-- An instruction that was decoded as the encoding at position `i` carries the number of the
encoding before it, one less than its own. -/
structure ReportsPrevious (ids : List (List Char)) (i : Nat) (insn : Insn) : Prop where
  own : ∀ id, ids[i]? = some id → (encodingEnum ids).value id = some (insn.encoding + 1)
  text : (encodingEnum ids).toString insn.encoding = (noneText :: ids)[i]?

theorem reportsPrevious_of_encoding {ids : List (List Char)} (hids : Numbered ids) {i : Nat}
    (hi : i < ids.length) {insn : Insn} (h : insn.encoding = i % 2 ^ 16) :
    ReportsPrevious ids i insn := by
  rw [Nat.mod_eq_of_lt (Nat.lt_of_lt_of_le hi hids.length_le)] at h
  have hnodup : (noneText :: ids.take (i + 1)).Nodup :=
    hids.nodup.sublist ((List.take_sublist _ _).cons_cons _)
  obtain ⟨hown, htext⟩ := encodingEnum_previous (List.getElem?_eq_getElem hi) hnodup
  constructor
  · intro id hid
    obtain rfl : ids[i] = id := Option.some.inj ((List.getElem?_eq_getElem hi).symm.trans hid)
    rw [h]
    exact hown
  · rw [h]
    exact htext

namespace X86

/-- The arguments of the template that was selected can be decoded. -/
def ArgumentsDecode (db : Db) (ctx : Context) (t : Internal) : Prop :=
  (decodeTemplate db (contextBuffer ctx) (decodeRealModrm db (contextBuffer ctx) t)).1 = true

/-- The end of `decode_template` reports the encoding of the state. -/
theorem decodeTemplate_encoding {db : Db} {buf : Buffer} {s : Internal}
    (h : (decodeTemplate db buf s).1 = true) :
    (decodeTemplate db buf s).2.insn.encoding = (decodeTemplate db buf s).2.encoding := by
  unfold decodeTemplate at h ⊢
  dsimp only at h ⊢
  generalize decodeNodes db buf _ 0 (beginTemplate db s) = r at h ⊢
  obtain ⟨ok, s'⟩ := r
  cases ok with
  | false => cases h
  | true => rfl

theorem decodeInsn_encoding {db : Db} {ctx : Context} {stale t : Internal} {insn : Insn}
    (h : accepted db ctx stale insn = some t) (hok : ArgumentsDecode db ctx t) :
    (decodeInsn db ctx stale insn).2.encoding = t.encoding := by
  rw [decodeInsn_of_accepted h]
  exact (decodeTemplate_encoding hok).trans (decodeSelected_selected h).1

end X86

/-- What the three decoders accept and decode by a template they report as the encoding before the
one they have found. A word that AArch64 accepts without such a template keeps the number of the
caller. -/
theorem reportsPrevious_of_decoded {ids : List (List Char)} (hids : Numbered ids) (ctx : Context)
    (insn : Insn) :
    (∀ (db : AArch64.Db) (stale : Argument),
      (AArch64.decodeInsn db ctx stale insn).1 = true →
      (AArch64.finalEncoding db stale ctx insn < ids.length →
        AArch64.encodingDecodes db (AArch64.fetchOpcode ctx)
          (AArch64.finalEncoding db stale ctx insn) = true →
        ReportsPrevious ids (AArch64.finalEncoding db stale ctx insn)
          (AArch64.decodeInsn db ctx stale insn).2) ∧
      (AArch64.encodingDecodes db (AArch64.fetchOpcode ctx)
          (AArch64.finalEncoding db stale ctx insn) = false →
        (AArch64.decodeInsn db ctx stale insn).2.encoding = insn.encoding)) ∧
    (∀ (db : AArch32.Db) (stale : AArch32.Internal) (isa : AArch32.Isa) (opcode : BitVec 32),
      AArch32.fetchOpcode ctx = some (isa, opcode) →
      (AArch32.decodeInsn db ctx stale insn).1 = true →
      AArch32.finalEncoding db ctx stale insn isa opcode < ids.length →
      ReportsPrevious ids (AArch32.finalEncoding db ctx stale insn isa opcode)
        (AArch32.decodeInsn db ctx stale insn).2.1) ∧
    (∀ (db : X86.Db) (stale t : X86.Internal), X86.accepted db ctx stale insn = some t →
      t.encoding < ids.length → X86.ArgumentsDecode db ctx t →
      ReportsPrevious ids t.encoding (X86.decodeInsn db ctx stale insn).2) := by
  refine ⟨fun db stale hok => ⟨fun hlt hdecodes => ?_, fun hnone => ?_⟩,
    fun db stale isa opcode hfetch hok hlt => ?_, fun db stale t haccepted hlt hdecodes => ?_⟩
  · exact reportsPrevious_of_encoding hids hlt
      (AArch64.decodeInsn_tagged db stale ctx insn hok hdecodes).encoding
  · exact congrArg AArch64.Tags.encoding (AArch64.decodeInsn_untagged db stale ctx insn hok hnone)
  · have hlength : ctx.length ≠ 0 := by
      intro h
      rw [AArch32.decodeInsn, if_pos h] at hok
      cases hok
    rw [AArch32.decodeInsn_of_fetched ctx stale insn hlength hfetch] at hok ⊢
    exact reportsPrevious_of_encoding hids hlt
      (AArch32.decodeFetched_tagged db ctx stale insn isa opcode hok).encoding
  · refine reportsPrevious_of_encoding hids hlt ?_
    rw [X86.decodeInsn_encoding haccepted hdecodes,
      Nat.mod_eq_of_lt (Nat.lt_of_lt_of_le hlt hids.length_le)]

namespace X86

/-- `HLT` behind an operand size prefix. -/
def haltContext : Context := Excerpt.contextOf .mode32 [0x66, 0xf4] 2

def haltSelected : Internal := (accepted haltTables haltContext default default).getD default

theorem accepted_haltSelected :
    accepted haltTables haltContext default default = some haltSelected := by
  obtain ⟨t, ht⟩ := Option.isSome_iff_exists.mp
    (by decide : (accepted haltTables haltContext default default).isSome = true)
  rw [haltSelected, ht]
  rfl

theorem haltSelected_encoding : haltSelected.encoding = 1 := by decide +kernel

end X86

/-- `HLT` is reported by the number of the invalid encoding. -/
theorem reportsPrevious_of_decoded_halt :
    ReportsPrevious ["INVALID".toList, "HLT".toList] X86.haltSelected.encoding
      (X86.decodeInsn X86.haltTables X86.haltContext default default).2 :=
  (reportsPrevious_of_decoded ⟨by decide, by decide⟩ X86.haltContext default).2.2 X86.haltTables
    default X86.haltSelected X86.accepted_haltSelected
    (by rw [X86.haltSelected_encoding]; decide) (by unfold X86.ArgumentsDecode; decide +kernel)

end Amed
