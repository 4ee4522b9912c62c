import Amed.X86.Slots
import Amed.X86.Opening

/-!
# What the operands consume

The ModRM byte of the selected encoding, what follows it, and the walk over the nodes of
the selected template.

## Implementation notes

`decode_modrm` steps over its byte without a check, so an encoding whose ModRM byte lies
behind the buffer is the one case in which the counter leaves the buffer; the 8-bit
counter then wraps if the buffer has 255 bytes.
-/

namespace Amed.X86

open Bytes

/-- The selected encoding has a ModRM byte behind the opcode. -/
def ReadsModrm (db : Db) (s : Internal) : Prop :=
  (db.encodings s.encoding).hasModrm = true ∧ s.mapidx ≠ mapIdx0F0F

instance (db : Db) (s : Internal) : Decidable (ReadsModrm db s) :=
  inferInstanceAs (Decidable (_ ∧ _))

/-- The ModRM byte of the selected encoding lies behind the buffer. -/
def ModrmMissing (db : Db) (buf : Buffer) (s : Internal) : Prop :=
  ReadsModrm db s ∧ buf.nb < s.pc + 1

instance (db : Db) (buf : Buffer) (s : Internal) : Decidable (ModrmMissing db buf s) :=
  inferInstanceAs (Decidable (_ ∧ _))

/-- The reads the selected encoding calls for behind the opcode. -/
def encodingWidths (db : Db) (buf : Buffer) (s : Internal) : List Nat :=
  if ReadsModrm db s then modrmWidthsAt buf s.pc else []

/-- The argument nodes of the selected template. -/
def templateNodes (db : Db) (s : Internal) : List DbNode :=
  db.arguments (db.templates s.ptemplate).arguments

/-- The walk over the nodes of the selected template, for arguments that start at `pos`. -/
def operandWalk (db : Db) (win : Window) (s : Internal) (pos : Nat) : Walk :=
  (Walk.nodes db win (templateNodes db s) 0 { s.view with pc := pos, fields := [] }).2

theorem walkFrom_of_settled {s s' : Internal} (h : s'.settled = s.settled) :
    s'.view = { s.view with pc := s'.pc } := by
  simp only [Internal.settled, Settled.mk.injEq] at h
  simp [Internal.view, h]

/-! ## The ModRM byte of the encoding -/

theorem decodeRealModrm_of_reads {db : Db} {s : Internal} (buf : Buffer) (h : ReadsModrm db s) :
    decodeRealModrm db buf s = (decodeModrm db buf s).2 := by
  simp only [decodeRealModrm, h.1, h.2, if_true, if_false]

/-- Without a ModRM byte behind the opcode nothing is read. -/
theorem decodeRealModrm_of_not_reads {db : Db} {s : Internal} (buf : Buffer)
    (h : ¬ReadsModrm db s) :
    (decodeRealModrm db buf s).settled = s.settled ∧
      (decodeRealModrm db buf s).cursor = s.cursor := by
  unfold decodeRealModrm
  by_cases hm : (db.encodings s.encoding).hasModrm
  · have hmap : s.mapidx = mapIdx0F0F := by
      by_contra hne
      exact h ⟨hm, hne⟩
    simp only [hm, hmap, if_true]
    exact ⟨trivial, trivial⟩
  · simp only [hm, Bool.false_eq_true, if_false]
    exact ⟨rfl, rfl⟩

/-- The record of a ModRM byte behind the buffer. -/
def absentModrm : Bytecode := ⟨.modrm, [0]⟩

/-- A ModRM byte behind the buffer is taken for 0, stepped over and recorded. -/
theorem decodeRealModrm_of_missing {db : Db} {buf : Buffer} {s : Internal}
    (h : ModrmMissing db buf s) (hm : ShowsModrm buf s) :
    (decodeRealModrm db buf s).settled = s.settled ∧
      (decodeRealModrm db buf s).cursor = ⟨(s.pc + 1) % 256, s.insn.x86.log.add absentModrm⟩ := by
  have hnone : buf.peekByte s.pc = none := peekByte_eq_none.mpr h.2
  obtain ⟨hmod, hrm, hbyte⟩ := hm
  rw [hnone] at hmod hrm hbyte
  have hmod₀ : s.diagram.mod = 0 := hmod
  have hrm₀ : s.diagram.rm = 0 := hrm
  have hdecode : decodeModrm db buf s =
      (true, { beginModrm s with diagram.hasModrm := true }) := by
    simp [decodeModrm, hmod₀, hrm₀, modrmDispSize, readDisp]
  rw [decodeRealModrm_of_reads buf h.1, hdecode]
  refine ⟨rfl, ?_⟩
  change Cursor.mk ((s.pc + 1) % 256) (s.insn.x86.log.add ⟨.modrm, [s.diagram.modrmByte]⟩) = _
  rw [hbyte]
  rfl

/-- What is read behind the opcode when the ModRM byte is inside the buffer. -/
theorem decodeRealModrm_of_present {db : Db} {buf : Buffer} {s : Internal}
    (h : ¬ModrmMissing db buf s) (hm : s.mapidx ≠ mapIdx0F0F → ShowsModrm buf s) :
    (decodeRealModrm db buf s).settled = s.settled ∧
      Splits buf s.cursor (decodeRealModrm db buf s).cursor
        (fitting buf.nb s.pc (encodingWidths db buf s)) True := by
  unfold encodingWidths
  by_cases hreads : ReadsModrm db s
  · have hin : s.pc + 1 ≤ buf.nb := by
      by_contra hout
      exact h ⟨hreads, by omega⟩
    have hpeek : buf.peekByte s.pc = some (buf.address s.pc) := peekByte_eq_some.mpr ⟨hin, rfl⟩
    obtain ⟨hmod, hrm, hbyte⟩ := hm hreads.2
    rw [hpeek] at hmod hrm hbyte
    have hr := decodeModrm_reads db hpeek hmod hrm hbyte
    rw [decodeRealModrm_of_reads buf hreads, if_pos hreads]
    exact ⟨hr.settled, Splits.of_reads hr⟩
  · obtain ⟨hset, hcur⟩ := decodeRealModrm_of_not_reads buf hreads
    rw [if_neg hreads, hcur]
    exact ⟨hset, Splits.refl _ _⟩

/-! ## The arguments of the template -/

theorem decodeTemplate_of_nodes {db : Db} {buf : Buffer} {s t : Internal} {ok : Bool}
    (h : decodeNodes db buf (templateNodes db s) 0 (beginTemplate db s) = (ok, t)) :
    decodeTemplate db buf s = (ok, if ok then finishTemplate db t else t) := by
  have hnodes : decodeNodes db buf (db.arguments
      (db.templates (beginTemplate db s).ptemplate).arguments) 0 (beginTemplate db s) = (ok, t) := h
  unfold decodeTemplate
  dsimp only
  rw [hnodes]
  cases ok <;> rfl

/-- `decode_template` follows the walk over the template's nodes. -/
theorem decodeTemplate_tracks (db : Db) (buf : Buffer) {s : Internal} (hvmem : s.vmem = none)
    (hvreg : s.vreg = none) :
    Tracks buf s.cursor (decodeTemplate db buf s).2 (operandWalk db buf.window s s.pc) := by
  obtain ⟨hok, htracks⟩ := decodeNodes_tracks db buf (templateNodes db s)
    (s := beginTemplate db s) hvmem hvreg
  cases hnodes : decodeNodes db buf (templateNodes db s) 0 (beginTemplate db s) with
  | mk ok t =>
      rw [hnodes] at htracks
      rw [decodeTemplate_of_nodes hnodes]
      cases ok with
      | false => exact htracks
      | true => exact Tracks.unseen htracks rfl rfl

/-- What the arguments of the selected template consume, from where they start. -/
structure Operands (db : Db) (buf : Buffer) (s : Internal) (start : Cursor) : Prop where
  splits : Splits buf start (decodeSelected db buf s).cursor
    ((operandWalk db buf.window s start.pc).fields.map fun f => f.bytes.length) True
  view : (decodeSelected db buf s).view = (operandWalk db buf.window s start.pc).toView

theorem decodeSelected_operands (db : Db) (buf : Buffer) {s : Internal} (hvmem : s.vmem = none)
    (hvreg : s.vreg = none) (hset : (decodeRealModrm db buf s).settled = s.settled) :
    Operands db buf s (decodeRealModrm db buf s).cursor := by
  have htracks := decodeTemplate_tracks db buf (s := decodeRealModrm db buf s)
    ((congrArg Settled.vmem hset).trans hvmem) ((congrArg Settled.vreg hset).trans hvreg)
  have hwalk : operandWalk db buf.window (decodeRealModrm db buf s) (decodeRealModrm db buf s).pc =
      operandWalk db buf.window s (decodeRealModrm db buf s).pc := by
    have hview := walkFrom_of_settled hset
    have hnodes : templateNodes db (decodeRealModrm db buf s) = templateNodes db s :=
      congrArg (fun p => db.arguments (db.templates p).arguments) (congrArg Settled.ptemplate hset)
    rw [operandWalk, operandWalk, hview, hnodes]
  rw [hwalk] at htracks
  exact ⟨Splits.of_consumes htracks.fields rfl htracks.types, htracks.view⟩

end Amed.X86
