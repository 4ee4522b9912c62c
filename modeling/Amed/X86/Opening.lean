import Amed.X86.Addressing

/-!
# The opening of an instruction

The prefixes, the escape and the opcode up to the choice of the template: what they
consume, in which widths, and what the rest of the decoder finds unchanged behind them.

## Implementation notes

`Splits` forgets the fields but their widths, and keeps whether every field was recorded
in the order of the input. Only the map escapes 0F38 and 0F3A are not.
-/

namespace Amed.X86

open Bytes

/-- Between two cursors the input is split into fields of the widths `ws`, and every
field is recorded in the order of the input exactly when `p` holds. -/
def Splits (buf : Buffer) (c c' : Cursor) (ws : List Nat) (p : Prop) : Prop :=
  ∃ fs, Consumes buf c c' fs ∧ fs.map (fun f => f.bytes.length) = ws ∧
    ((∀ f ∈ fs, f.bytes = inputBytes f) ↔ p)

theorem inputBytes_of_type {f : Bytecode} (h : f.type ≠ .map) : f.bytes = inputBytes f :=
  (if_neg h).symm

namespace Splits

variable {buf : Buffer} {c c' c'' : Cursor} {ws ws' : List Nat} {p q : Prop}

theorem of_consumes {fs : List Bytecode} (h : Consumes buf c c' fs)
    (hws : fs.map (fun f => f.bytes.length) = ws) (hty : ∀ f ∈ fs, f.type ≠ .map) :
    Splits buf c c' ws True :=
  ⟨fs, h, hws, iff_true_intro fun f hf => inputBytes_of_type (hty f hf)⟩

theorem refl (buf : Buffer) (c : Cursor) : Splits buf c c [] True :=
  of_consumes (Consumes.refl buf c) rfl (by simp)

/-- The fields of two parts are those of the first and those of the second behind them. -/
theorem trans (h : Splits buf c c' ws p) (h' : Splits buf c' c'' ws' q) :
    Splits buf c c'' (ws ++ ws') (p ∧ q) := by
  obtain ⟨fs, hc, hws, hp⟩ := h
  obtain ⟨gs, hc', hws', hq⟩ := h'
  refine ⟨fs ++ gs, hc.trans hc', by rw [List.map_append, hws, hws'], ?_⟩
  simp only [List.mem_append, or_imp, forall_and, hp, hq]

theorem of_reads {s : Internal} {r : Bool × Internal} (h : Reads buf s r ws) :
    Splits buf s.cursor r.2.cursor (fitting buf.nb s.pc ws) True := by
  obtain ⟨fs, hc, hws, hty⟩ := h.fields
  exact of_consumes hc hws hty

theorem pc_eq (h : Splits buf c c' ws p) : c'.pc = c.pc + ws.sum := by
  obtain ⟨fs, hc, rfl, -⟩ := h
  exact hc.pc

theorem pc_le (h : Splits buf c c' ws p) (hc : c.pc ≤ buf.nb) : c'.pc ≤ buf.nb := by
  obtain ⟨fs, hfs, -⟩ := h
  exact hfs.pc_le hc

end Splits

/-! ## Prefixes and escape -/

/-- The bytes of the map escape or the vector prefix at a position. -/
def escapeWidth (buf : Buffer) (longMode : Bool) (pos : Nat) : Nat :=
  if buf.peekByte pos = some 0x0f then (mapField buf pos).bytes.length
  else vectorWidth buf longMode pos

/-- The escape of a 3DNow instruction. -/
def ThreeDNow (buf : Buffer) (pos : Nat) : Prop :=
  buf.peekByte pos = some 0x0f ∧ buf.peekByte (pos + 1) = some 0x0f

instance (buf : Buffer) (pos : Nat) : Decidable (ThreeDNow buf pos) :=
  inferInstanceAs (Decidable (_ ∧ _))

/-- A two-byte map escape whose bytes differ: its record is not in the order of the input. -/
def SwappedMap (buf : Buffer) (pos : Nat) : Prop :=
  buf.peekByte pos = some 0x0f ∧
    (buf.peekByte (pos + 1) = some 0x38 ∨ buf.peekByte (pos + 1) = some 0x3a)

instance (buf : Buffer) (pos : Nat) : Decidable (SwappedMap buf pos) :=
  inferInstanceAs (Decidable (_ ∧ _))

theorem secondEscape_eq_some {op : UInt8} {map word : Nat} :
    secondEscape op = some (map, word) ↔
      (op = 0x0f ∧ map = mapIdx0F0F ∧ word = 0x0f0f) ∨
        (op = 0x38 ∧ map = mapIdx0F38 ∧ word = 0x0f38) ∨
        (op = 0x3a ∧ map = mapIdx0F3A ∧ word = 0x0f3a) := by
  unfold secondEscape
  split
  · rename_i h
    subst h
    simp [eq_comm]
  · split
    · rename_i h
      subst h
      simp [eq_comm]
    · split
      · rename_i h
        subst h
        simp [eq_comm]
      · simp [*]

/-- The map escape is recorded in the order of the input unless it is 0F38 or 0F3A. -/
theorem mapField_inOrder {buf : Buffer} {pos : Nat} (h : buf.peekByte pos = some 0x0f) :
    (mapField buf pos).bytes = inputBytes (mapField buf pos) ↔ ¬SwappedMap buf pos := by
  unfold mapField SwappedMap
  simp only [h, true_and]
  cases hsecond : (buf.peekByte (pos + 1)).bind secondEscape with
  | none =>
      refine iff_of_true rfl ?_
      rintro (hop | hop) <;> simp [hop, secondEscape] at hsecond
  | some q =>
      obtain ⟨map, word⟩ := q
      obtain ⟨op, hop, hesc⟩ := Option.bind_eq_some_iff.mp hsecond
      rw [hop]
      rcases secondEscape_eq_some.mp hesc with ⟨rfl, rfl, rfl⟩ | ⟨rfl, rfl, rfl⟩ | ⟨rfl, rfl, rfl⟩ <;>
        decide

theorem mapIndex_threeDNow {buf : Buffer} {pos : Nat} (h : buf.peekByte pos = some 0x0f) :
    mapIndex buf pos = mapIdx0F0F ↔ ThreeDNow buf pos := by
  unfold mapIndex ThreeDNow
  simp only [h, true_and]
  cases hsecond : (buf.peekByte (pos + 1)).bind secondEscape with
  | none =>
      refine iff_of_false (by decide) ?_
      intro hop
      simp [hop, secondEscape] at hsecond
  | some q =>
      obtain ⟨map, word⟩ := q
      obtain ⟨op, hop, hesc⟩ := Option.bind_eq_some_iff.mp hsecond
      rw [hop]
      rcases secondEscape_eq_some.mp hesc with ⟨rfl, rfl, rfl⟩ | ⟨rfl, rfl, rfl⟩ | ⟨rfl, rfl, rfl⟩ <;>
        decide

theorem mapField_bytes_ne_nil (buf : Buffer) (pos : Nat) : (mapField buf pos).bytes.length ≠ 0 := by
  unfold mapField
  split <;> simp

/-- What the prefixes and the escape of an instruction consume and leave alone; `k` is
the position behind the prefixes. -/
structure Scanned (buf : Buffer) (s s' : Internal) (k : Nat) : Prop where
  splits : Splits buf s.cursor s'.cursor
    (List.replicate (k - s.pc) 1 ++ readOf (escapeWidth buf s.diagram.longMode k))
    (¬SwappedMap buf k)
  frame : Frame s s'
  threeDNow : s.mapidx = 0 → (s'.mapidx = mapIdx0F0F ↔ ThreeDNow buf k)

theorem applyPrefix_mapidx (df : DefaultSizes) (s : Internal) (op : UInt8) :
    (applyPrefix df s op).mapidx = s.mapidx := by
  change (prefixEffect df s op).mapidx = s.mapidx
  unfold prefixEffect
  split
  · rfl
  · split <;> rfl

theorem foldl_applyPrefix_mapidx (df : DefaultSizes) (ps : List UInt8) (s : Internal) :
    (ps.foldl (applyPrefix df) s).mapidx = s.mapidx := by
  induction ps generalizing s with
  | nil => rfl
  | cons op ps ih => rw [List.foldl_cons, ih, applyPrefix_mapidx]

/-- The prefixes leave what the frame holds alone. -/
theorem foldl_applyPrefix_frame (df : DefaultSizes) (run : List UInt8) (s : Internal) :
    Frame s (run.foldl (applyPrefix df) s) := by
  induction run generalizing s with
  | nil => exact Frame.refl s
  | cons op run ih => exact (applyPrefix_frame df s op).trans (ih _)

/-- The escape at the counter. -/
theorem decodeEscape_scanned {buf : Buffer} {s : Internal} {op : UInt8}
    (hop : buf.peekByte s.pc = some op) : Scanned buf s (decodeEscape buf s op) s.pc := by
  have hne : op ≠ 0x0f → buf.peekByte s.pc ≠ some 0x0f :=
    fun h he => h (Option.some.inj (hop.symm.trans he))
  rcases decodeEscape_cases hop with ⟨hmap, hw, hs⟩ | ⟨hmap, hw, ⟨f, hty, hlen, hc⟩, hframe, hidx⟩ |
    ⟨rfl, hc, hframe, hidx, -⟩
  · rw [hs]
    refine ⟨?_, Frame.refl s, fun hzero => ?_⟩
    · simp only [Nat.sub_self, escapeWidth, hne hmap, if_false, hw]
      exact ⟨[], Consumes.refl _ _, rfl, by simp [SwappedMap, hne hmap]⟩
    · exact iff_of_false (by rw [hzero]; decide) fun h => hne hmap h.1
  · refine ⟨?_, hframe, fun _ => iff_of_false hidx fun h => hne hmap h.1⟩
    simp only [Nat.sub_self, escapeWidth, hne hmap, if_false]
    exact ⟨[f], hc, by simp [readOf_ne hw, hlen],
      by simp [SwappedMap, hne hmap, ← inputBytes_of_type hty]⟩
  · refine ⟨?_, hframe, fun _ => ?_⟩
    · simp only [Nat.sub_self, escapeWidth, hop, if_true]
      exact ⟨[mapField buf s.pc], hc, by simp [readOf_ne (mapField_bytes_ne_nil buf s.pc)],
        by simp [mapField_inOrder hop]⟩
    · rw [hidx, mapIndex_threeDNow hop]

/-- The prefix loop and the escape behind it. -/
theorem scanPrefixes_scanned (buf : Buffer) (df : DefaultSizes) (s : Internal) :
    Scanned buf s (scanPrefixes buf df s)
      (s.pc + (prefixBytes buf s.diagram.longMode s.pc).length) := by
  unfold scanPrefixes
  rw [run_prefixStep df (by omega)]
  obtain ⟨hc, hframe⟩ := foldl_prefixBytes buf df s.diagram.longMode s rfl
  have hidx := foldl_applyPrefix_mapidx df (prefixBytes buf s.diagram.longMode s.pc) s
  generalize hps : prefixBytes buf s.diagram.longMode s.pc = ps at hc hframe hidx ⊢
  generalize ps.foldl (applyPrefix df) s = s₁ at hc hframe hidx ⊢
  have hpre : Splits buf s.cursor s₁.cursor (List.replicate ps.length 1) True := by
    refine ⟨_, hc, ?_, iff_true_intro ?_⟩
    · rw [List.map_map]
      exact List.map_const'
    · intro f hf
      obtain ⟨op, -, rfl⟩ := List.mem_map.mp hf
      rw [inputBytes_prefixField]
      rfl
  have hpc : s₁.pc = s.pc + ps.length := by simpa using hpre.pc_eq
  dsimp only
  rw [← hpc]
  cases hop : buf.peekByte s₁.pc with
  | none =>
      have hw : escapeWidth buf s.diagram.longMode s₁.pc = 0 := by
        simp [escapeWidth, vectorWidth, hop]
      refine ⟨?_, hframe, fun hzero => ?_⟩
      · rw [hw, hpc, Nat.add_sub_cancel_left, ← hpc]
        obtain ⟨fs, h₁, h₂, h₃⟩ := hpre
        exact ⟨fs, h₁, by simpa [readOf] using h₂, by simpa [SwappedMap, hop] using h₃⟩
      · exact iff_of_false (by rw [hidx, hzero]; decide) fun h => by simp [ThreeDNow, hop] at h
  | some op =>
      obtain ⟨hsplits, hframe', hnow⟩ := decodeEscape_scanned hop
      refine ⟨?_, hframe.trans hframe', fun hzero => hnow (hidx.trans hzero)⟩
      have hall := hpre.trans hsplits
      rw [hframe.longMode] at hall
      simpa [hpc] using hall

/-! ## The opcode -/

/-- The reads of a ModRM byte at a position and of what follows it. -/
def modrmWidthsAt (buf : Buffer) (pos : Nat) : List Nat :=
  1 :: modrmWidths (bits (buf.address pos) 6 2) (bits (buf.address pos) 0 3)
    (bits (buf.address (pos + 1)) 0 3)

/-- `decode_modrm` on a byte of the buffer. -/
theorem decodeModrm_reads (db : Db) {buf : Buffer} {s : Internal} {m : UInt8}
    (hm : buf.peekByte s.pc = some m) (hmod : s.diagram.mod = bits m 6 2)
    (hrm : s.diagram.rm = bits m 0 3) (hbyte : s.diagram.modrmByte = m) :
    Reads buf s (decodeModrm db buf s) (modrmWidthsAt buf s.pc) := by
  obtain ⟨hin, rfl⟩ := peekByte_eq_some.mp hm
  obtain ⟨hreads, -⟩ := decodeModrm_spec db buf s hin hbyte
  rwa [hmod, hrm] at hreads

/-- The ModRM fields are those of the byte at the counter, and of 0 behind the buffer. -/
def ShowsModrm (buf : Buffer) (s : Internal) : Prop :=
  s.diagram.mod = bits ((buf.peekByte s.pc).getD 0) 6 2 ∧
    s.diagram.rm = bits ((buf.peekByte s.pc).getD 0) 0 3 ∧
    s.diagram.modrmByte = (buf.peekByte s.pc).getD 0

/-- The members of the diagram that the operand and the address size depend on. -/
structure Sizes where
  asz : Nat
  osz : Nat
  w : Bool
  p66 : Bool
  enc : Nat

def Diagram.sizes (d : Diagram) : Sizes := ⟨d.asz, d.osz, d.w, d.p66, d.enc⟩

theorem sizes_of_settled {s s' : Internal} (h : s'.settled = s.settled) :
    s'.diagram.sizes = s.diagram.sizes :=
  congrArg (fun t : Settled => Sizes.mk t.asz t.osz t.w t.p66 t.enc) h

/-- What the opcode fetch consumes and leaves behind. -/
structure Fetched (buf : Buffer) (s s' : Internal) : Prop where
  splits : Splits buf s.cursor s'.cursor
    ((if s.mapidx = mapIdx0F0F then modrmWidthsAt buf s.pc else []) ++ [1]) True
  frame : Frame s s'
  mapidx : s'.mapidx = s.mapidx
  sizes : s'.diagram.sizes = s.diagram.sizes
  modrm : s.mapidx ≠ mapIdx0F0F → ShowsModrm buf s'

/-- Stepping over the opcode and recording it. -/
theorem opcode_splits {buf : Buffer} {s s' : Internal} {op : UInt8}
    (hop : buf.peekByte s.pc = some op)
    (hcur : s'.cursor = ((s.advance 1).addBytecode .opcode [op]).cursor) :
    Splits buf s.cursor s'.cursor [1] True := by
  obtain ⟨hin, rfl⟩ := peekByte_eq_some.mp hop
  rw [hcur]
  exact Splits.of_consumes (consumes_advance buf (f := ⟨.opcode, [buf.address s.pc]⟩) hin rfl) rfl
    (by simp)

/-- What an opcode with its ModRM byte has read is what the bytes say. -/
theorem fetchOpcode_fetched {db : Db} {buf : Buffer} {s s' : Internal}
    (h : fetchOpcode db buf s = (true, s')) : Fetched buf s s' := by
  unfold fetchOpcode at h
  split at h
  · rename_i hnow
    cases hm : buf.peekByte s.pc with
    | none => simp [hm] at h
    | some m =>
        simp only [hm] at h
        have hreads := decodeModrm_reads db (s := s.setModrmField m) hm rfl rfl
          (modrmByte_setModrmField s m)
        generalize decodeModrm db buf (s.setModrmField m) = r at h hreads
        obtain ⟨ok, s₁⟩ := r
        cases ok with
        | false => simp at h
        | true =>
            cases hop : buf.peekByte s₁.pc with
            | none => simp [hop] at h
            | some op =>
                simp only [hop, Prod.mk.injEq, true_and] at h
                subst h
                have hsplits := Splits.of_reads hreads
                rw [hreads.ok.mp rfl] at hsplits
                have hframe : Frame s s₁ := frame_of_settled hreads.settled
                refine ⟨?_, ⟨hframe.1, hframe.2, hframe.3, hframe.4, hframe.5, hframe.6⟩,
                  congrArg Settled.mapidx hreads.settled, sizes_of_settled hreads.settled,
                  fun hne => absurd hnow hne⟩
                rw [if_pos hnow]
                change Splits buf s.cursor s₁.cursor (modrmWidthsAt buf s.pc) True at hsplits
                have hop' : Splits buf s₁.cursor (recordOpcode (s₁.advance 1) op).cursor [1] True :=
                  opcode_splits hop rfl
                simpa using hsplits.trans hop'
  · rename_i hnow
    cases hop : buf.peekByte s.pc with
    | none => simp [hop] at h
    | some op =>
        simp only [hop, Prod.mk.injEq, true_and] at h
        subst h
        refine ⟨?_, ⟨rfl, rfl, rfl, rfl, rfl, rfl⟩, rfl, rfl, fun _ => ⟨rfl, rfl, ?_⟩⟩
        · rw [if_neg hnow, List.nil_append]
          exact opcode_splits hop rfl
        · exact modrmByte_setModrmField (s.advance 1) _

/-! ## The selected template -/

/-- Long mode as `decode_entry` sets it: by the mode, or by a bit of the features. -/
def longModeOf (mode : MachineMode) (features : BitVec 32) : Bool :=
  mode = .mode64 || features.getLsbD 23

/-- The state in which the real ModRM byte and the arguments are decoded. -/
def selected (db : Db) (buf : Buffer) (mode : MachineMode) (features : BitVec 32)
    (s : Internal) : Option Internal :=
  match defaultSizes mode with
  | none => none
  | some df =>
      match fetchOpcode db buf (scanPrefixes buf df (setMode mode df (initialise features s))) with
      | (false, _) => none
      | (true, s) => some (selectTemplate db s)

/-- The state in which the template is looked up, if an opcode is fetched. -/
def fetched (db : Db) (buf : Buffer) (mode : MachineMode) (features : BitVec 32)
    (s : Internal) : Option Internal :=
  match defaultSizes mode with
  | none => none
  | some df =>
      match fetchOpcode db buf (scanPrefixes buf df (setMode mode df (initialise features s))) with
      | (false, _) => none
      | (true, s) => some s

/-- A template is selected for every opcode that is fetched. -/
theorem selected_eq_map (db : Db) (buf : Buffer) (mode : MachineMode) (features : BitVec 32)
    (s : Internal) :
    selected db buf mode features s = (fetched db buf mode features s).map (selectTemplate db) := by
  unfold selected fetched
  cases defaultSizes mode with
  | none => rfl
  | some df =>
      dsimp only
      generalize fetchOpcode db buf (scanPrefixes buf df _) = r
      obtain ⟨ok, t⟩ := r
      cases ok <;> rfl

theorem selected_of_fetched {db : Db} {buf : Buffer} {mode : MachineMode} {features : BitVec 32}
    {s u : Internal} (h : fetched db buf mode features s = some u) :
    selected db buf mode features s = some (selectTemplate db u) := by
  rw [selected_eq_map, h]
  rfl

theorem decodeEntry_fst (db : Db) (buf : Buffer) (mode : MachineMode) (features : BitVec 32)
    (s : Internal) :
    (decodeEntry db buf mode features s).1 = (selected db buf mode features s).isSome := by
  unfold decodeEntry selected
  cases defaultSizes mode with
  | none => rfl
  | some df =>
      dsimp only
      cases fetchOpcode db buf (scanPrefixes buf df (setMode mode df (initialise features s))) with
      | mk ok s' => cases ok <;> rfl

theorem decodeEntry_of_selected {db : Db} {buf : Buffer} {mode : MachineMode}
    {features : BitVec 32} {s s' : Internal} (h : selected db buf mode features s = some s') :
    decodeEntry db buf mode features s = (true, decodeSelected db buf s') := by
  unfold selected at h
  unfold decodeEntry
  cases hdf : defaultSizes mode with
  | none => simp [hdf] at h
  | some df =>
      simp only [hdf] at h ⊢
      cases hf : fetchOpcode db buf (scanPrefixes buf df
          (setMode mode df (initialise features s))) with
      | mk ok s₁ =>
          rw [hf] at h
          cases ok with
          | false => simp at h
          | true =>
              obtain rfl := Option.some.inj h
              rfl

/-- The bytes of the prefixes an instruction starts with. -/
def prefixCount (buf : Buffer) (longMode : Bool) : Nat := (prefixBytes buf longMode 0).length

/-- The widths of the fields up to the opcode, for an instruction at the start of the buffer. -/
def openingWidths (buf : Buffer) (longMode : Bool) : List Nat :=
  let k := prefixCount buf longMode
  let e := escapeWidth buf longMode k
  List.replicate k 1 ++ readOf e ++
    (if ThreeDNow buf k then modrmWidthsAt buf (k + e) else []) ++ [1]

/-- What is known of the state a template was selected in. -/
structure Opened (buf : Buffer) (lm : Bool) (s s' : Internal) : Prop where
  splits : Splits buf s.cursor s'.cursor (openingWidths buf lm)
    (¬SwappedMap buf (prefixCount buf lm))
  longMode : s'.diagram.longMode = lm
  hasIs4 : s'.diagram.hasIs4 = false
  vmem : s'.vmem = none
  vreg : s'.vreg = none
  overrun : s'.insn.overrun = s.insn.overrun
  threeDNow : s'.mapidx = mapIdx0F0F ↔ ThreeDNow buf (prefixCount buf lm)
  modrm : s'.mapidx ≠ mapIdx0F0F → ShowsModrm buf s'

theorem openingWidths_sum_pos (buf : Buffer) (longMode : Bool) :
    0 < (openingWidths buf longMode).sum := by
  simp [openingWidths]

theorem Diagram.overrideSize_fields (d : Diagram) (t : DbTemplate) :
    (d.overrideSize t).longMode = d.longMode ∧ (d.overrideSize t).hasIs4 = d.hasIs4 ∧
      (d.overrideSize t).mod = d.mod ∧ (d.overrideSize t).rm = d.rm ∧
      (d.overrideSize t).modrmByte = d.modrmByte := by
  unfold Diagram.overrideSize
  split
  · split
    · exact ⟨rfl, rfl, rfl, rfl, rfl⟩
    · split <;> exact ⟨rfl, rfl, rfl, rfl, rfl⟩
  · exact ⟨rfl, rfl, rfl, rfl, rfl⟩

theorem Diagram.hashSizes_fields (d : Diagram) :
    d.hashSizes.longMode = d.longMode ∧ d.hashSizes.hasIs4 = d.hasIs4 ∧
      d.hashSizes.mod = d.mod ∧ d.hashSizes.rm = d.rm ∧ d.hashSizes.modrmByte = d.modrmByte := by
  unfold Diagram.hashSizes
  dsimp only
  split <;> exact ⟨rfl, rfl, rfl, rfl, rfl⟩

theorem selectTemplate_fields (db : Db) (s : Internal) :
    let s' := selectTemplate db s
    s'.diagram.longMode = s.diagram.longMode ∧ s'.diagram.hasIs4 = s.diagram.hasIs4 ∧
      s'.diagram.mod = s.diagram.mod ∧ s'.diagram.rm = s.diagram.rm ∧
      s'.diagram.modrmByte = s.diagram.modrmByte := by
  intro s'
  obtain ⟨ho₁, ho₂, ho₃, ho₄, ho₅⟩ :=
    s.diagram.hashSizes.overrideSize_fields (db.templates s'.ptemplate)
  obtain ⟨hh₁, hh₂, hh₃, hh₄, hh₅⟩ := s.diagram.hashSizes_fields
  exact ⟨ho₁.trans hh₁, ho₂.trans hh₂, ho₃.trans hh₃, ho₄.trans hh₄, ho₅.trans hh₅⟩

theorem setMode_longMode (mode : MachineMode) (df : DefaultSizes) (features : BitVec 32)
    (s : Internal) :
    (setMode mode df (initialise features s)).diagram.longMode = longModeOf mode features := rfl

/-- A selected template: the opening lies inside the buffer, field by field. -/
theorem opened_of_selected {db : Db} {buf : Buffer} {mode : MachineMode} {features : BitVec 32}
    {s s' : Internal} (hpc : s.pc = 0) (h : selected db buf mode features s = some s') :
    Opened buf (longModeOf mode features) s s' := by
  unfold selected at h
  cases hdf : defaultSizes mode with
  | none => simp [hdf] at h
  | some df =>
      simp only [hdf] at h
      have hscan := scanPrefixes_scanned buf df (setMode mode df (initialise features s))
      have hmap : (setMode mode df (initialise features s)).mapidx = 0 := rfl
      have hcur : (setMode mode df (initialise features s)).cursor = s.cursor := rfl
      have hpc₀ : (setMode mode df (initialise features s)).pc = 0 := hpc
      have hframe₀ : (setMode mode df (initialise features s)).diagram.hasIs4 = false ∧
          (setMode mode df (initialise features s)).vmem = none ∧
          (setMode mode df (initialise features s)).vreg = none ∧
          (setMode mode df (initialise features s)).insn.overrun = s.insn.overrun :=
        ⟨rfl, rfl, rfl, rfl⟩
      have hlong := setMode_longMode mode df features s
      rw [hlong, hpc₀, Nat.zero_add] at hscan
      generalize setMode mode df (initialise features s) = s₀ at *
      generalize scanPrefixes buf df s₀ = s₁ at *
      obtain ⟨hsplits, hframe, hnow⟩ := hscan
      cases hf : fetchOpcode db buf s₁ with
      | mk ok s₂ =>
          rw [hf] at h
          cases ok with
          | false => simp at h
          | true =>
              obtain rfl := Option.some.inj h
              obtain ⟨hfetch, hframe', hidx, -, hmodrm⟩ := fetchOpcode_fetched hf
              have hall := hframe.trans hframe'
              have hnow := hnow hmap
              have hpc₁ : s₁.pc = prefixCount buf (longModeOf mode features) +
                  escapeWidth buf (longModeOf mode features)
                    (prefixCount buf (longModeOf mode features)) := by
                have := hsplits.pc_eq
                simpa [hpc₀, prefixCount, hlong, readOf_sum] using this
              obtain ⟨h₁, h₂, h₃, h₄, h₅⟩ := selectTemplate_fields db s₂
              refine ⟨?_, h₁.trans (hall.longMode.trans hlong), h₂.trans (hall.hasIs4.trans hframe₀.1),
                hall.vmem.trans hframe₀.2.1, hall.vreg.trans hframe₀.2.2.1,
                hall.overrun.trans hframe₀.2.2.2, ?_, fun hne => ?_⟩
              · have hsplit := hsplits.trans hfetch
                simp only [hnow, hpc₁] at hsplit
                rw [hcur, hlong, hpc₀, Nat.sub_zero, and_true, ← List.append_assoc] at hsplit
                exact hsplit
              · change s₂.mapidx = _ ↔ _
                rw [hidx, hnow]
                rfl
              · obtain ⟨hm₁, hm₂, hm₃⟩ := hmodrm (fun he => hne (hidx.trans he))
                exact ⟨h₃.trans hm₁, h₄.trans hm₂, h₅.trans hm₃⟩

theorem fetchOpcode_fst (db : Db) (buf : Buffer) (s : Internal) (hpc : s.pc ≤ buf.nb) :
    (fetchOpcode db buf s).1 = true ↔
      s.pc + ((if s.mapidx = mapIdx0F0F then modrmWidthsAt buf s.pc else []) ++ [1]).sum ≤
        buf.nb := by
  constructor
  · intro h
    obtain ⟨hsplits, -⟩ := fetchOpcode_fetched
      (Prod.ext h rfl : fetchOpcode db buf s = (true, (fetchOpcode db buf s).2))
    have hpc' := hsplits.pc_eq
    simp only [Internal.cursor_pc] at hpc'
    rw [← hpc']
    exact hsplits.pc_le hpc
  · intro hsum
    unfold fetchOpcode
    by_cases hnow : s.mapidx = mapIdx0F0F
    · rw [if_pos hnow, List.sum_append] at hsum
      have hm : buf.peekByte s.pc = some (buf.address s.pc) := by
        refine peekByte_eq_some.mpr ⟨?_, rfl⟩
        simp only [modrmWidthsAt, List.sum_cons] at hsum
        omega
      have hreads := decodeModrm_reads db (s := s.setModrmField (buf.address s.pc)) hm rfl rfl
        (modrmByte_setModrmField s _)
      have hfits : s.pc + (modrmWidthsAt buf s.pc).sum ≤ buf.nb := by
        simp only [List.sum_cons, List.sum_nil] at hsum
        omega
      have hok := hreads.ok.mpr ((fitting_eq_self hpc).mpr hfits)
      have hpc₁ := hreads
      simp only [hnow, if_true, hm]
      generalize decodeModrm db buf (s.setModrmField (buf.address s.pc)) = r at hok hpc₁ ⊢
      obtain ⟨ok, s₁⟩ := r
      obtain rfl : ok = true := hok
      have hpc₂ : s₁.pc = s.pc + (modrmWidthsAt buf s.pc).sum := hpc₁.pc_eq
      have hop : buf.peekByte s₁.pc = some (buf.address s₁.pc) :=
        peekByte_eq_some.mpr ⟨by simp only [List.sum_cons, List.sum_nil] at hsum; omega, rfl⟩
      simp only [hop]
    · rw [if_neg hnow] at hsum
      have hop : buf.peekByte s.pc = some (buf.address s.pc) :=
        peekByte_eq_some.mpr ⟨by simpa using hsum, rfl⟩
      simp only [hnow, if_false, hop]

/-- An instruction is accepted exactly when its opening lies inside the buffer. -/
theorem selected_isSome_iff (db : Db) (buf : Buffer) (mode : MachineMode) (features : BitVec 32)
    {s : Internal} (hpc : s.pc = 0) :
    (selected db buf mode features s).isSome = true ↔
      (defaultSizes mode).isSome = true ∧
        (openingWidths buf (longModeOf mode features)).sum ≤ buf.nb := by
  unfold selected
  cases hdf : defaultSizes mode with
  | none => simp
  | some df =>
      have hscan := scanPrefixes_scanned buf df (setMode mode df (initialise features s))
      have hmap : (setMode mode df (initialise features s)).mapidx = 0 := rfl
      have hpc₀ : (setMode mode df (initialise features s)).pc = 0 := hpc
      have hlong := setMode_longMode mode df features s
      rw [hlong, hpc₀, Nat.zero_add] at hscan
      dsimp only
      generalize setMode mode df (initialise features s) = s₀ at *
      generalize scanPrefixes buf df s₀ = s₁ at *
      obtain ⟨hsplits, -, hnow⟩ := hscan
      have hnow := hnow hmap
      have hle : s₁.pc ≤ buf.nb := by
        refine hsplits.pc_le ?_
        rw [Internal.cursor_pc, hpc₀]
        exact Nat.zero_le _
      have hpc₁ : s₁.pc = prefixCount buf (longModeOf mode features) +
          escapeWidth buf (longModeOf mode features)
            (prefixCount buf (longModeOf mode features)) := by
        have := hsplits.pc_eq
        simpa [hpc₀, prefixCount, hlong, readOf_sum] using this
      have hfetch := fetchOpcode_fst db buf s₁ hle
      have hsum : (openingWidths buf (longModeOf mode features)).sum = s₁.pc +
          ((if s₁.mapidx = mapIdx0F0F then modrmWidthsAt buf s₁.pc else []) ++ [1]).sum := by
        have hnow' : s₁.mapidx = mapIdx0F0F ↔
            ThreeDNow buf (prefixCount buf (longModeOf mode features)) := hnow
        simp only [openingWidths, hnow', ← hpc₁, List.sum_append, List.sum_replicate_nat, readOf_sum]
        omega
      rw [hsum, ← hfetch]
      cases hf : fetchOpcode db buf s₁ with
      | mk ok s₂ => cases ok <;> simp

end Amed.X86
