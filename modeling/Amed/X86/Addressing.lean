import Amed.X86.Escape
import Amed.X86.Excerpt

/-!
# What a ModRM byte consumes

The fields `decode_modrm` reads behind the ModRM byte, by the mod, rm and base fields,
and the comparison with the displacement table of the architecture.

## Implementation notes

`decode_sib` reads the displacement of a base 5 by itself and `decode_modrm` reads the
displacement of mod 1 and mod 2 again behind it, so `modrmWidths` has two displacements
there. The architecture's table is `manualDispWidth`.
-/

namespace Amed.X86

open Bytes

/-- The members that reading a ModRM byte and what follows it does not touch. -/
structure Settled where
  longMode : Bool
  hasIs4 : Bool
  vmem : Option Nat
  vreg : Option Nat
  overrun : Bool
  isUndefined : Bool
  mapidx : Nat
  encoding : Nat
  ptemplate : Nat
  asz : Nat
  osz : Nat
  sss : Nat
  w : Bool
  p66 : Bool
  enc : Nat

def Internal.settled (s : Internal) : Settled :=
  ⟨s.diagram.longMode, s.diagram.hasIs4, s.vmem, s.vreg, s.insn.overrun,
    s.insn.attributes.isUndefined, s.mapidx, s.encoding, s.ptemplate, s.diagram.asz,
    s.diagram.osz, s.diagram.sss, s.diagram.w, s.diagram.p66, s.diagram.enc⟩

theorem frame_of_settled {s s' : Internal} (h : s'.settled = s.settled) : Frame s s' where
  longMode := congrArg Settled.longMode h
  hasIs4 := congrArg Settled.hasIs4 h
  vmem := congrArg Settled.vmem h
  vreg := congrArg Settled.vreg h
  overrun := congrArg Settled.overrun h
  isUndefined := congrArg Settled.isUndefined h

theorem takeBytes_settled {buf : Buffer} {s s' : Internal} {type : BytecodeType} {n : Nat}
    {bs : List UInt8} (h : s.takeBytes buf type n = some (bs, s')) : s'.settled = s.settled := by
  obtain ⟨-, -, rfl⟩ := takeBytes_eq_some.mp h
  rfl

/-- An outcome after reading fields of the widths `ws` as far as they fit. -/
structure Reads (buf : Buffer) (s : Internal) (r : Bool × Internal) (ws : List Nat) : Prop where
  fields : ∃ fs, Consumes buf s.cursor r.2.cursor fs ∧
    fs.map (fun f => f.bytes.length) = fitting buf.nb s.pc ws ∧ ∀ f ∈ fs, f.type ≠ .map
  ok : r.1 = true ↔ fitting buf.nb s.pc ws = ws
  settled : r.2.settled = s.settled

namespace Reads

variable {buf : Buffer} {s s' : Internal} {r : Bool × Internal} {ws ws' : List Nat}

theorem done (h : s'.cursor = s.cursor) (hs : s'.settled = s.settled) : Reads buf s (true, s') [] where
  fields := ⟨[], h ▸ Consumes.refl _ _, rfl, by simp⟩
  ok := by simp
  settled := hs

theorem take {type : BytecodeType} {n : Nat} {bs : List UInt8}
    (h : s.takeBytes buf type n = some (bs, s')) (htype : type ≠ .map) :
    Reads buf s (true, s') [n] := by
  obtain ⟨hin, -, -⟩ := takeBytes_eq_some.mp h
  refine ⟨⟨_, takeBytes_consumes h htype, ?_, by simpa using htype⟩, ?_, takeBytes_settled h⟩
  · simp [fitting_cons_of_le _ hin, takeBytes_length h]
  · simp [fitting_cons_of_le _ hin]

theorem refused {n : Nat} (h : buf.nb < s.pc + n) (hc : s'.cursor = s.cursor)
    (hs : s'.settled = s.settled) : Reads buf s (false, s') [n] where
  fields := ⟨[], hc ▸ Consumes.refl _ _, by rw [fitting_cons_of_lt _ h]; rfl, by simp⟩
  ok := by simp [fitting_cons_of_lt _ h]
  settled := hs

/-- Later changes of members outside the cursor and the settled ones do not matter. -/
theorem change {s'' : Internal} {ok : Bool} (h : Reads buf s (ok, s') ws)
    (hc : s''.cursor = s'.cursor) (hs : s''.settled = s'.settled) : Reads buf s (ok, s'') ws where
  fields := by
    obtain ⟨fs, hfs, hrest⟩ := h.fields
    exact ⟨fs, by rw [hc]; exact hfs, hrest⟩
  ok := h.ok
  settled := hs.trans h.settled

theorem pc_eq (h : Reads buf s (true, s') ws) : s'.pc = s.pc + ws.sum := by
  obtain ⟨fs, hc, hlen, -⟩ := h.fields
  have hpc := hc.pc
  rw [h.ok.mp rfl] at hlen
  simpa only [Internal.cursor_pc, width, hlen] using hpc

/-- One read behind another that went through. -/
theorem seq (h : Reads buf s (true, s') ws) (h' : Reads buf s' r ws') :
    Reads buf s r (ws ++ ws') := by
  have hpc := h.pc_eq
  have hfit := h.ok.mp rfl
  obtain ⟨fs, hc, hlen, hty⟩ := h.fields
  obtain ⟨gs, hc', hlen', hty'⟩ := h'.fields
  refine ⟨⟨fs ++ gs, hc.trans hc', ?_, ?_⟩, ?_, h'.settled.trans h.settled⟩
  · rw [List.map_append, hlen, hlen', fitting_append_of_fits _ hfit, hfit, hpc]
  · intro f hf
    rcases List.mem_append.mp hf with hf | hf
    · exact hty f hf
    · exact hty' f hf
  · rw [h'.ok, fitting_append_of_fits _ hfit, hpc, List.append_cancel_left_eq]

/-- A read that failed ends the list of widths. -/
theorem stop (h : Reads buf s (false, s') ws) (ws' : List Nat) :
    Reads buf s (false, s') (ws ++ ws') := by
  have hfit : fitting buf.nb s.pc ws ≠ ws := fun he => absurd (h.ok.mpr he) (by simp)
  obtain ⟨fs, hc, hlen, hty⟩ := h.fields
  refine ⟨⟨fs, hc, ?_, hty⟩, ?_, h.settled⟩
  · rw [hlen, fitting_append_of_not_fits _ hfit]
  · simp only [Bool.false_eq_true, false_iff]
    exact fun he => hfit (fitting_eq_self_of_append he)

end Reads

/-! ## The fields behind a ModRM byte -/

/-- The factor between the raw and the effective displacement. -/
def dispScale (db : Db) (s : Internal) (length : Nat) : Int :=
  if length = 1 ∧ s.diagram.enc = encodingEvex then
    getEvexDisp8N (db.templates s.ptemplate).tuple s.diagram
  else 1

/-- The displacement of the given width that lies at a position. -/
def dispAt (buf : Buffer) (pc length : Nat) : Int :=
  toSigned (8 * length) (leNat (slice buf.address pc length))

/-- A displacement is read exactly when it lies inside the buffer. -/
theorem decodeDisp_spec (db : Db) (buf : Buffer) (s : Internal) {n : Nat}
    (hn : n = 1 ∨ n = 2 ∨ n = 4) :
    (buf.nb < s.pc + n ∧ decodeDisp db buf s n = none) ∨
      ∃ s', decodeDisp db buf s n = some s' ∧ Reads buf s (true, s') [n] ∧
        s'.diagram.disp = dispAt buf s.pc n * dispScale db s n ∧
        ∀ k, dispScale db s' k = dispScale db s k := by
  cases htake : s.takeBytes buf .disp n with
  | none => exact .inl ⟨takeBytes_eq_none.mp htake, by simp [decodeDisp, htake]⟩
  | some p =>
      obtain ⟨bs, s₁⟩ := p
      right
      have hreads := Reads.take htake (by decide)
      have hdecode : decodeDisp db buf s n =
          setDisp db s₁ (toSigned (8 * n) (leNat bs)) n := by
        simp only [decodeDisp, htake]
      obtain ⟨-, rfl, rfl⟩ := takeBytes_eq_some.mp htake
      rw [hdecode]
      rcases hn with rfl | rfl | rfl
      · refine ⟨_, rfl, hreads.change rfl rfl, ?_, fun _ => rfl⟩
        -- a raw displacement of 0 is not scaled, which makes no difference
        change (if dispAt buf s.pc 1 ≠ 0 ∧ s.diagram.enc = encodingEvex then
          dispAt buf s.pc 1 * getEvexDisp8N (db.templates s.ptemplate).tuple s.diagram
          else dispAt buf s.pc 1) = _
        by_cases henc : s.diagram.enc = encodingEvex
        · by_cases hzero : dispAt buf s.pc 1 = 0 <;> simp [dispScale, henc, hzero]
        · simp [dispScale, henc]
      · exact ⟨_, rfl, hreads.change rfl rfl,
          by simp [dispScale, dispAt], fun _ => rfl⟩
      · exact ⟨_, rfl, hreads.change rfl rfl,
          by simp [dispScale, dispAt], fun _ => rfl⟩

/-- A width as a list of reads; no read for 0. -/
def readOf (n : Nat) : List Nat := if n = 0 then [] else [n]

/-- The reads of `decode_sib`. -/
def sibWidths (mod base : Nat) : List Nat := 1 :: readOf (sibDispLength mod base)

/-- The reads of `decode_modrm` behind the ModRM byte. -/
def modrmWidths (mod rm base : Nat) : List Nat :=
  (if mod ≠ 3 ∧ rm = 4 then sibWidths mod base else []) ++ readOf (modrmDispSize mod rm)

theorem readOf_ne {n : Nat} (h : n ≠ 0) : readOf n = [n] := if_neg h

@[simp] theorem readOf_sum (n : Nat) : (readOf n).sum = n := by
  unfold readOf
  split <;> simp_all

theorem sibDispLength_cases (mod base : Nat) :
    sibDispLength mod base = 0 ∨ sibDispLength mod base = 1 ∨ sibDispLength mod base = 4 := by
  unfold sibDispLength
  split
  · split <;> simp
  · simp

theorem modrmDispSize_cases (mod rm : Nat) :
    modrmDispSize mod rm = 0 ∨ modrmDispSize mod rm = 1 ∨ modrmDispSize mod rm = 4 := by
  unfold modrmDispSize
  split
  · split <;> simp
  all_goals simp

/-- An optional displacement: what is read, and the displacement behind it. -/
theorem readDisp_spec (db : Db) (buf : Buffer) (s : Internal) {n : Nat}
    (hn : n = 0 ∨ n = 1 ∨ n = 4) :
    let r := readDisp db buf s n
    Reads buf s r (readOf n) ∧
      (r.1 = true → r.2.diagram.disp =
        if n = 0 then s.diagram.disp else dispAt buf s.pc n * dispScale db s n) ∧
      ∀ k, dispScale db r.2 k = dispScale db s k := by
  intro r
  by_cases hzero : n = 0
  · have hr : r = (true, s) := if_pos hzero
    rw [hr, hzero]
    exact ⟨Reads.done rfl rfl, by simp, fun _ => rfl⟩
  · rw [readOf_ne hzero, if_neg hzero]
    rcases decodeDisp_spec db buf s (n := n) (by omega) with ⟨hlt, hnone⟩ | ⟨s', hsome, hr, hd, hs⟩
    · have hr : r = (false, s) := by simp only [r, readDisp, if_neg hzero, hnone]
      rw [hr]
      exact ⟨Reads.refused hlt rfl rfl, by simp, fun _ => rfl⟩
    · have hr' : r = (true, s') := by simp only [r, readDisp, if_neg hzero, hsome]
      rw [hr']
      exact ⟨hr, fun _ => hd, hs⟩

/-- What `decode_sib` reads, by the mod field and the base of the SIB byte. -/
theorem decodeSib_spec (db : Db) (buf : Buffer) (s : Internal) :
    let base := bits (buf.address s.pc) 0 3
    let n := sibDispLength s.diagram.mod base
    let r := decodeSib db buf s
    Reads buf s r (sibWidths s.diagram.mod base) ∧
      (r.1 = true → r.2.diagram.disp =
        if n = 0 then s.diagram.disp else dispAt buf (s.pc + 1) n * dispScale db s n) ∧
      ∀ k, dispScale db r.2 k = dispScale db s k := by
  intro base n r
  cases htake : s.takeBytes buf .sib 1 with
  | none =>
      have hr : r = (false, s) := by simp only [r, decodeSib, htake]
      rw [hr]
      have href := Reads.refused (takeBytes_eq_none.mp htake) rfl rfl
      exact ⟨href.stop (readOf n), by simp, fun _ => rfl⟩
  | some p =>
      obtain ⟨bs, s₁⟩ := p
      have htaken := Reads.take htake (by decide)
      obtain ⟨hin, rfl, rfl⟩ := takeBytes_eq_some.mp htake
      have hpc := advance_pc hin
      let s₂ : Internal :=
        { (s.advance 1).addBytecode .sib (slice buf.address s.pc 1) with
          diagram := { s.diagram with
            index := bits (buf.address s.pc) 3 3, base := base
            scale := 2 ^ bits (buf.address s.pc) 6 2, hasSib := true }
          hasIndex := s.diagram.enc ≠ encodingNone ||
            !(!s.diagram.x && bits (buf.address s.pc) 3 3 = 4)
          hasBase := s.hasBase && !(base = 5 && s.diagram.mod = 0) }
      have hr : r = readDisp db buf s₂ n := by
        simp only [r, decodeSib, htake, slice_one]
        rfl
      obtain ⟨hr₁, hr₂, hr₃⟩ := readDisp_spec db buf s₂ (sibDispLength_cases s.diagram.mod base)
      have hsib : Reads buf s (true, s₂) [1] := htaken.change rfl rfl
      have hpc₂ : s₂.pc = s.pc + 1 := hpc
      rw [hpc₂] at hr₂
      rw [hr]
      exact ⟨hsib.seq hr₁, hr₂, hr₃⟩

/-- The reads of `decode_modrm` in front of its own displacement. -/
def sibPart (mod rm base : Nat) : List Nat :=
  if mod ≠ 3 ∧ rm = 4 then sibWidths mod base else []

/-- The displacement `decode_modrm` leaves behind, for a ModRM byte at `pc`. -/
def modrmDisp (db : Db) (buf : Buffer) (s : Internal) (pc mod rm base : Nat) : Int :=
  let size := modrmDispSize mod rm
  let sibSize := sibDispLength mod base
  if size ≠ 0 then dispAt buf (pc + 1 + (sibPart mod rm base).sum) size * dispScale db s size
  else if mod ≠ 3 ∧ rm = 4 ∧ sibSize ≠ 0 then dispAt buf (pc + 2) sibSize * dispScale db s sibSize
  else 0

/-- What `decode_modrm` reads when its byte is the one at the counter. -/
theorem decodeModrm_spec (db : Db) (buf : Buffer) (s : Internal) (hin : s.pc + 1 ≤ buf.nb)
    (hbyte : s.diagram.modrmByte = buf.address s.pc) :
    let base := bits (buf.address (s.pc + 1)) 0 3
    let r := decodeModrm db buf s
    Reads buf s r (1 :: modrmWidths s.diagram.mod s.diagram.rm base) ∧
      (r.1 = true →
        r.2.diagram.disp = modrmDisp db buf s s.pc s.diagram.mod s.diagram.rm base) := by
  intro base r
  have hpc₁ : (beginModrm s).pc = s.pc + 1 := advance_pc hin
  have htake : s.takeBytes buf .modrm 1 = some ([s.diagram.modrmByte],
      (s.advance 1).addBytecode .modrm [s.diagram.modrmByte]) :=
    takeBytes_eq_some.mpr ⟨hin, by simp [hbyte], rfl⟩
  have hfirst : Reads buf s (true, beginModrm s) [1] :=
    (Reads.take htake (by decide)).change rfl rfl
  -- the SIB byte and its own displacement
  have hsib : ∃ p, (if s.diagram.mod ≠ 3 ∧ s.diagram.rm = 4 then decodeSib db buf (beginModrm s)
        else (true, beginModrm s)) = p ∧
      Reads buf (beginModrm s) p (sibPart s.diagram.mod s.diagram.rm base) ∧
      (p.1 = true → p.2.diagram.disp =
        if s.diagram.mod ≠ 3 ∧ s.diagram.rm = 4 ∧ sibDispLength s.diagram.mod base ≠ 0 then
          dispAt buf (s.pc + 2) (sibDispLength s.diagram.mod base) *
            dispScale db s (sibDispLength s.diagram.mod base)
        else 0) ∧ ∀ k, dispScale db p.2 k = dispScale db s k := by
    refine ⟨_, rfl, ?_⟩
    by_cases hcase : s.diagram.mod ≠ 3 ∧ s.diagram.rm = 4
    · obtain ⟨h₁, h₂, h₃⟩ := decodeSib_spec db buf (beginModrm s)
      rw [if_pos hcase, sibPart, if_pos hcase]
      rw [hpc₁] at h₁ h₂
      refine ⟨h₁, fun hok => (h₂ hok).trans ?_, h₃⟩
      change (if sibDispLength s.diagram.mod base = 0 then 0
        else dispAt buf (s.pc + 2) _ * dispScale db s _) = _
      by_cases hz : sibDispLength s.diagram.mod base = 0
      · rw [if_pos hz, if_neg fun h => h.2.2 hz]
      · rw [if_neg hz, if_pos ⟨hcase.1, hcase.2, hz⟩]
        rfl
    · rw [if_neg hcase, sibPart, if_neg hcase]
      refine ⟨Reads.done rfl rfl, fun _ => ?_, fun _ => rfl⟩
      rw [if_neg (fun h => hcase ⟨h.1, h.2.1⟩)]
      rfl
  obtain ⟨⟨ok, s₂⟩, hp, hreads, hdisp, hscale⟩ := hsib
  cases ok with
  | false =>
      have hr : r = (false, s₂) := by simp only [r, decodeModrm, hp]
      rw [hr]
      refine ⟨?_, by simp⟩
      exact hfirst.seq (hreads.stop (readOf (modrmDispSize s.diagram.mod s.diagram.rm)))
  | true =>
      have hpc₂ := hreads.pc_eq
      obtain ⟨h₁, h₂, -⟩ :=
        readDisp_spec db buf s₂ (modrmDispSize_cases s.diagram.mod s.diagram.rm)
      cases hread : readDisp db buf s₂ (modrmDispSize s.diagram.mod s.diagram.rm) with
      | mk ok s₃ =>
          rw [hread] at h₁ h₂
          cases ok with
          | false =>
              have hr : r = (false, s₃) := by simp only [r, decodeModrm, hp, hread]
              rw [hr]
              exact ⟨hfirst.seq (hreads.seq h₁), by simp⟩
          | true =>
              have hr : r = (true, { s₃ with diagram.hasModrm := true }) := by
                simp only [r, decodeModrm, hp, hread]
              rw [hr]
              refine ⟨hfirst.seq (hreads.seq (h₁.change rfl rfl)), fun _ => ?_⟩
              refine (h₂ rfl).trans ?_
              rw [hdisp rfl, hscale, hpc₂, hpc₁, modrmDisp]
              by_cases hz : modrmDispSize s.diagram.mod s.diagram.rm = 0 <;> simp [hz]

/-! ## The displacement table of the architecture -/

theorem bits_lt (b : UInt8) (pos width : Nat) : bits b pos width < 2 ^ width :=
  Nat.mod_lt _ (Nat.two_pow_pos width)

/-- `decode_modrm` puts the byte together that the fields were taken from. -/
theorem modrmByte_setModrmField (s : Internal) (m : UInt8) :
    (s.setModrmField m).diagram.modrmByte = m := by
  have hlt : m.toNat < 256 := m.toNat_lt
  have hsum : 64 * bits m 6 2 + 8 * bits m 3 3 + bits m 0 3 = m.toNat := by
    simp only [bits]
    omega
  change UInt8.ofNat (64 * bits m 6 2 + 8 * bits m 3 3 + bits m 0 3) = m
  rw [hsum, UInt8.ofNat_toNat]

/-- The number of SIB bytes behind a ModRM byte. -/
def sibLength (mod rm : Nat) : Nat := if mod ≠ 3 ∧ rm = 4 then 1 else 0

/-- The displacement width the architecture gives a ModRM and SIB byte with 32- or
64-bit addressing. -/
def manualDispWidth (mod rm base : Nat) : Nat :=
  match mod with
  | 0 => if rm = 5 ∨ rm = 4 ∧ base = 5 then 4 else 0
  | 1 => 1
  | 2 => 4
  | _ => 0

/-- The fields for which `decode_sib` and `decode_modrm` both read the displacement. -/
def ReadsDispTwice (mod rm base : Nat) : Prop := (mod = 1 ∨ mod = 2) ∧ rm = 4 ∧ base = 5

instance (mod rm base : Nat) : Decidable (ReadsDispTwice mod rm base) :=
  inferInstanceAs (Decidable (_ ∧ _))

theorem modrmWidths_sum {mod : Nat} (hmod : mod < 4) (rm base : Nat) :
    (modrmWidths mod rm base).sum =
      sibLength mod rm + manualDispWidth mod rm base +
        if ReadsDispTwice mod rm base then manualDispWidth mod rm base else 0 := by
  have hcases : mod = 0 ∨ mod = 1 ∨ mod = 2 ∨ mod = 3 := by omega
  by_cases hrm : rm = 4
  · subst hrm
    by_cases hbase : base = 5
    · subst hbase
      rcases hcases with rfl | rfl | rfl | rfl <;> decide
    · rcases hcases with rfl | rfl | rfl | rfl <;>
        simp [modrmWidths, sibWidths, sibDispLength, readOf, modrmDispSize, sibLength,
          manualDispWidth, ReadsDispTwice, hbase]
  · rcases hcases with rfl | rfl | rfl | rfl <;>
      by_cases hrip : rm = 5 <;>
        simp [modrmWidths, readOf, modrmDispSize, sibLength, manualDispWidth, ReadsDispTwice, hrm,
          hrip]

/-- Decoding the ModRM byte at the counter follows the table: it steps over the SIB byte
and one displacement of the table's width, and leaves that displacement behind. -/
structure AddressedByTable (db : Db) (buf : Buffer) (s : Internal) (mod rm base : Nat)
    (s' : Internal) : Prop where
  consumed : s'.pc = s.pc + (1 + sibLength mod rm + manualDispWidth mod rm base)
  displacement : s'.diagram.disp =
    if manualDispWidth mod rm base = 0 then 0
    else dispAt buf (s.pc + 1 + sibLength mod rm) (manualDispWidth mod rm base) *
      dispScale db s (manualDispWidth mod rm base)

theorem modrmDisp_eq (db : Db) (buf : Buffer) (s : Internal) (pc : Nat) {mod : Nat}
    (hmod : mod < 4) (rm base : Nat) (h : ¬ReadsDispTwice mod rm base) :
    modrmDisp db buf s pc mod rm base =
      if manualDispWidth mod rm base = 0 then 0
      else dispAt buf (pc + 1 + sibLength mod rm) (manualDispWidth mod rm base) *
        dispScale db s (manualDispWidth mod rm base) := by
  have hcases : mod = 0 ∨ mod = 1 ∨ mod = 2 ∨ mod = 3 := by omega
  by_cases hrm : rm = 4
  · subst hrm
    by_cases hbase : base = 5
    · subst hbase
      rcases hcases with rfl | rfl | rfl | rfl
      · rfl
      · exact absurd (by decide) h
      · exact absurd (by decide) h
      · rfl
    · rcases hcases with rfl | rfl | rfl | rfl <;>
        simp [modrmDisp, sibPart, sibWidths, sibDispLength, readOf, modrmDispSize, sibLength,
          manualDispWidth, hbase]
  · rcases hcases with rfl | rfl | rfl | rfl <;>
      by_cases hrip : rm = 5 <;>
        simp [modrmDisp, sibPart, modrmDispSize, sibLength, manualDispWidth, hrm, hrip]

/-- A successful `decode_modrm` on the byte at the counter follows the table exactly when
the byte is not one of those whose displacement is read twice. -/
theorem decodeModrm_table_iff (db : Db) (buf : Buffer) (s : Internal) {m : UInt8}
    (hm : buf.peekByte s.pc = some m)
    (hok : (decodeModrm db buf (s.setModrmField m)).1 = true) :
    AddressedByTable db buf s (bits m 6 2) (bits m 0 3) (bits (buf.address (s.pc + 1)) 0 3)
        (decodeModrm db buf (s.setModrmField m)).2 ↔
      ¬ReadsDispTwice (bits m 6 2) (bits m 0 3) (bits (buf.address (s.pc + 1)) 0 3) := by
  obtain ⟨hin, hbyte⟩ := peekByte_eq_some.mp hm
  have hmod : bits m 6 2 < 4 := bits_lt m 6 2
  obtain ⟨hreads, hdisp⟩ := decodeModrm_spec db buf (s.setModrmField m) hin
    ((modrmByte_setModrmField s m).trans hbyte)
  generalize decodeModrm db buf (s.setModrmField m) = r at hok hreads hdisp ⊢
  obtain ⟨ok, s'⟩ := r
  obtain rfl : ok = true := hok
  have hpc : s'.pc = s.pc + (1 + (modrmWidths (bits m 6 2) (bits m 0 3)
      (bits (buf.address (s.pc + 1)) 0 3)).sum) := hreads.pc_eq
  rw [modrmWidths_sum hmod] at hpc
  constructor
  · intro htable htwice
    have hd : manualDispWidth (bits m 6 2) (bits m 0 3) (bits (buf.address (s.pc + 1)) 0 3) ≠ 0 := by
      rcases htwice with ⟨hmod | hmod, -, -⟩ <;> simp [manualDispWidth, hmod]
    have hpc' : s'.pc = _ := htable.consumed
    rw [if_pos htwice] at hpc
    omega
  · intro hnot
    rw [if_neg hnot] at hpc
    refine ⟨show s'.pc = _ by omega, ?_⟩
    rw [hdisp rfl]
    exact modrmDisp_eq db buf _ _ hmod _ _ hnot

open Excerpt in
/-- `[ebp + 0x10]` as ModRM 44, SIB 25: one byte of displacement has the table's width, and
the code reads two. -/
theorem not_table_modrm44 :
    ¬∀ (db : Db) (buf : Buffer) (s : Internal) (m : UInt8), buf.peekByte s.pc = some m →
      (decodeModrm db buf (s.setModrmField m)).1 = true →
        AddressedByTable db buf s (bits m 6 2) (bits m 0 3) (bits (buf.address (s.pc + 1)) 0 3)
          (decodeModrm db buf (s.setModrmField m)).2 := by
  intro h
  have hpc := (h tables (bufferOf [0x44, 0x25, 0x10, 0x20] (by decide)) default 0x44 (by decide)
    (by decide)).consumed
  exact absurd hpc (by decide)

open Excerpt in
/-- `[esi + 0x10]` as ModRM 46 follows the table. -/
theorem table_modrm46 :
    AddressedByTable tables (bufferOf [0x46, 0x10] (by decide)) default (bits 0x46 6 2)
      (bits 0x46 0 3) (bits 0x10 0 3)
      (decodeModrm tables (bufferOf [0x46, 0x10] (by decide))
        ((default : Internal).setModrmField 0x46)).2 :=
  (decodeModrm_table_iff tables (bufferOf [0x46, 0x10] (by decide)) default (m := 0x46)
    (by decide) (by decide)).mpr (by decide)

end Amed.X86
