import Amed.X86.Bytecodes

/-!
# Buffers that agree on a stretch of bytes

Two buffers that hold the same first `n` bytes give the same reads, and the same opening
of an instruction that ends inside the stretch, up to the byte behind the opcode.

## Implementation notes

Whether a vector prefix is taken depends on bytes behind the opcode when it is refused,
so the width of the vector prefix is a hypothesis of its own.
-/

namespace Amed.X86

open Bytes

/-- Both buffers hold the first `n` bytes, and the same ones. -/
structure Agree (buf buf' : Buffer) (n : Nat) : Prop where
  le : n ≤ buf.nb
  le' : n ≤ buf'.nb
  bytes : ∀ i < n, buf'.address i = buf.address i

namespace Agree

variable {buf buf' : Buffer} {n : Nat}

theorem mono (h : Agree buf buf' n) {k : Nat} (hk : k ≤ n) : Agree buf buf' k where
  le := hk.trans h.le
  le' := hk.trans h.le'
  bytes i hi := h.bytes i (hi.trans_le hk)

theorem slice_eq (h : Agree buf buf' n) {pos k : Nat} (hk : pos + k ≤ n) :
    slice buf'.address pos k = slice buf.address pos k := by
  apply slice_congr
  intro i _ hi
  exact h.bytes i (by omega)

theorem peekByte_eq (h : Agree buf buf' n) {pos : Nat} (hpos : pos + 1 ≤ n) :
    buf.peekByte pos = some (buf.address pos) ∧ buf'.peekByte pos = buf.peekByte pos := by
  have hle := h.le
  have hle' := h.le'
  have hpeek : buf.peekByte pos = some (buf.address pos) := peekByte_eq_some.mpr ⟨by omega, rfl⟩
  refine ⟨hpeek, ?_⟩
  rw [hpeek, ← h.bytes pos hpos]
  exact peekByte_eq_some.mpr ⟨by omega, rfl⟩

theorem peekBytes_eq (h : Agree buf buf' n) {pos k : Nat} (hk : pos + k ≤ n) :
    buf'.peekBytes pos k = buf.peekBytes pos k := by
  have hle := h.le
  have hle' := h.le'
  simp only [Buffer.peekBytes, h.slice_eq hk]
  rw [if_neg (by omega), if_neg (by omega)]

theorem takeBytes_eq (h : Agree buf buf' n) {s : Internal} {type : BytecodeType} {k : Nat}
    (hk : s.pc + k ≤ n) : s.takeBytes buf' type k = s.takeBytes buf type k := by
  simp only [Internal.takeBytes, h.peekBytes_eq hk]

/-- A prefix run that ends inside the stretch is the same in both buffers. -/
theorem prefixBytes_eq (h : Agree buf buf' n) {lm : Bool} {pos : Nat}
    (hend : pos + (prefixBytes buf lm pos).length < n) :
    prefixBytes buf' lm pos = prefixBytes buf lm pos := by
  induction hps : prefixBytes buf lm pos generalizing pos with
  | nil =>
      obtain ⟨hpeek, hpeek'⟩ := h.peekByte_eq (by omega : pos + 1 ≤ n)
      rw [prefixBytes_of_some hpeek] at hps
      rw [prefixBytes_of_some (hpeek'.trans hpeek)]
      split at hps
      · exact absurd hps (by simp)
      · rw [if_neg ‹_›]
  | cons op ps ih =>
      obtain ⟨hpeek, hpeek'⟩ := h.peekByte_eq (by omega : pos + 1 ≤ n)
      rw [prefixBytes_of_some hpeek] at hps
      rw [prefixBytes_of_some (hpeek'.trans hpeek)]
      split at hps
      · rename_i hpre
        obtain ⟨hop, htail⟩ := List.cons.inj hps
        rw [if_pos hpre, hop, ih ?_ htail]
        rw [prefixBytes_of_some hpeek, if_pos hpre, List.length_cons] at hend
        omega
      · exact absurd hps (by simp)

end Agree

/-! ## The opening -/

/-- A vector prefix depends on its own bytes only. -/
theorem decodeEscape_of_vector {buf buf' : Buffer} {s : Internal} {lm : Bool} {op : UInt8} {k : Nat}
    {accepts : List UInt8 → Bool} (hvec : vectorPrefix lm op = some (k, accepts))
    (htake : ∀ type, s.takeBytes buf' type k = s.takeBytes buf type k)
    (hpeek : buf'.peekBytes s.pc k = buf.peekBytes s.pc k) :
    decodeEscape buf' s op = decodeEscape buf s op := by
  unfold vectorPrefix at hvec
  split at hvec
  · rename_i hop
    obtain ⟨rfl, -⟩ := Prod.mk.inj (Option.some.inj hvec)
    simp only [decodeEscape, hop, decodeXop, htake]
  · rename_i hop
    obtain ⟨rfl, -⟩ := Prod.mk.inj (Option.some.inj hvec)
    simp only [decodeEscape, hop, decodeMevex, hpeek]
  · rename_i hop
    obtain ⟨rfl, -⟩ := Prod.mk.inj (Option.some.inj hvec)
    simp only [decodeEscape, hop, decodeVex3, htake]
  · rename_i hop
    obtain ⟨rfl, -⟩ := Prod.mk.inj (Option.some.inj hvec)
    simp only [decodeEscape, hop, decodeVex2, htake]
  · exact absurd hvec (by simp)

/-- An escape inside the stretch is the same in both buffers. -/
theorem decodeEscape_agree {buf buf' : Buffer} {n : Nat} (h : Agree buf buf' n) {s : Internal}
    {op : UInt8} (hop : buf.peekByte s.pc = some op)
    (hw : vectorWidth buf' s.diagram.longMode s.pc = vectorWidth buf s.diagram.longMode s.pc)
    (hin : s.pc + escapeWidth buf s.diagram.longMode s.pc < n) :
    decodeEscape buf' s op = decodeEscape buf s op := by
  have hop' : buf'.peekByte s.pc = some op := (h.peekByte_eq (by omega)).2.trans hop
  have hlt := buf.nb_lt
  have hle := h.le
  by_cases hmap : op = 0x0f
  · subst hmap
    have hpos : 0 < escapeWidth buf s.diagram.longMode s.pc := by
      rw [escapeWidth, if_pos hop]
      exact Nat.pos_of_ne_zero (mapField_bytes_ne_nil buf s.pc)
    have hpc : ({ s with mapidx := mapIdx0F }.advance 1).pc = s.pc + 1 :=
      Nat.mod_eq_of_lt (by omega : s.pc + 1 < 256)
    change decodeMap buf' s = decodeMap buf s
    unfold decodeMap
    dsimp only
    rw [hpc, (h.peekByte_eq (by omega : s.pc + 1 + 1 ≤ n)).2]
  · have hne : buf.peekByte s.pc ≠ some 0x0f := fun he => hmap (Option.some.inj (hop.symm.trans he))
    rw [escapeWidth, if_neg hne] at hin
    rcases decodeEscape_cases hop with ⟨-, hzero, hs⟩ | ⟨-, hpos, -⟩ | ⟨rfl, -⟩
    · rcases decodeEscape_cases hop' with ⟨-, -, hs'⟩ | ⟨-, hpos, -⟩ | ⟨rfl, -⟩
      · rw [hs, hs']
      · exact absurd (hw.trans hzero) hpos
      · exact absurd rfl hmap
    · unfold vectorWidth at hin hpos
      rw [hop, Option.bind_some] at hin hpos
      cases hvec : vectorPrefix s.diagram.longMode op with
      | none => simp [hvec] at hpos
      | some p =>
          obtain ⟨k, accepts⟩ := p
          simp only [hvec] at hin hpos
          split at hin
          · have htake : ∀ type, s.takeBytes buf' type k = s.takeBytes buf type k :=
              fun _ => h.takeBytes_eq hin.le
            have hbytes : buf'.peekBytes s.pc k = buf.peekBytes s.pc k := h.peekBytes_eq hin.le
            exact decodeEscape_of_vector hvec htake hbytes
          · rename_i hrej
            rw [if_neg hrej] at hpos
            exact absurd rfl hpos
    · exact absurd rfl hmap

/-- The prefixes and the escape, when the opcode behind them lies inside the stretch. -/
theorem scanPrefixes_agree {buf buf' : Buffer} {n : Nat} (h : Agree buf buf' n) (df : DefaultSizes)
    {s : Internal} {k : Nat} (hk : k = s.pc + (prefixBytes buf s.diagram.longMode s.pc).length)
    (hw : vectorWidth buf' s.diagram.longMode k = vectorWidth buf s.diagram.longMode k)
    (hin : k + escapeWidth buf s.diagram.longMode k < n) :
    scanPrefixes buf' df s = scanPrefixes buf df s := by
  have hps : prefixBytes buf' s.diagram.longMode s.pc = prefixBytes buf s.diagram.longMode s.pc :=
    h.prefixBytes_eq (by omega)
  unfold scanPrefixes
  rw [run_prefixStep df (by omega), run_prefixStep df (by omega), hps]
  obtain ⟨hc, hframe⟩ := foldl_prefixBytes buf df s.diagram.longMode s rfl
  have hpc := hc.pc
  simp only [width, List.map_map] at hpc
  generalize prefixBytes buf s.diagram.longMode s.pc = ps at hc hframe hpc hk ⊢
  generalize ps.foldl (applyPrefix df) s = s₁ at hc hframe hpc ⊢
  have hpc₁ : s₁.pc = k := by
    have hmap : ps.map ((fun f => f.bytes.length) ∘ prefixField) = List.replicate ps.length 1 :=
      List.map_const'
    rw [hmap, List.sum_replicate_nat, Nat.mul_one] at hpc
    exact hpc.trans hk.symm
  dsimp only
  obtain ⟨hpeek, hpeek'⟩ := h.peekByte_eq (by omega : s₁.pc + 1 ≤ n)
  rw [hpeek', hpeek]
  dsimp only
  rw [← hframe.longMode, ← hpc₁] at hw hin
  exact decodeEscape_agree h hpeek hw hin

theorem readDisp_agree (db : Db) {buf buf' : Buffer} {n : Nat} (h : Agree buf buf' n) {s : Internal}
    {k : Nat} (hin : s.pc + k ≤ n) : readDisp db buf' s k = readDisp db buf s k := by
  simp only [readDisp, decodeDisp, h.takeBytes_eq hin]

theorem decodeSib_agree (db : Db) {buf buf' : Buffer} {n : Nat} (h : Agree buf buf' n)
    {s : Internal} (hin : s.pc + (sibWidths s.diagram.mod (bits (buf.address s.pc) 0 3)).sum ≤ n) :
    decodeSib db buf' s = decodeSib db buf s := by
  simp only [sibWidths, List.sum_cons, readOf_sum] at hin
  have hle := h.le
  have htake : s.takeBytes buf .sib 1 = some ([buf.address s.pc],
      (s.advance 1).addBytecode .sib [buf.address s.pc]) :=
    takeBytes_eq_some.mpr ⟨by omega, by simp, rfl⟩
  have hpc : (s.advance 1).pc = s.pc + 1 := advance_pc (by omega : s.pc + 1 ≤ buf.nb)
  unfold decodeSib
  rw [h.takeBytes_eq (by omega), htake]
  refine readDisp_agree db h ?_
  change (s.advance 1).pc + sibDispLength s.diagram.mod (bits (buf.address s.pc) 0 3) ≤ n
  omega

/-- A ModRM byte whose SIB byte and displacement lie inside the stretch. -/
theorem decodeModrm_agree (db : Db) {buf buf' : Buffer} {n : Nat} (h : Agree buf buf' n)
    {s : Internal} (hin : s.pc + (1 :: modrmWidths s.diagram.mod s.diagram.rm
      (bits (buf.address (s.pc + 1)) 0 3)).sum ≤ n) :
    decodeModrm db buf' s = decodeModrm db buf s := by
  simp only [List.sum_cons, modrmWidths, List.sum_append, readOf_sum] at hin
  have hle := h.le
  have hpc₁ : (beginModrm s).pc = s.pc + 1 := advance_pc (by omega : s.pc + 1 ≤ buf.nb)
  unfold decodeModrm
  by_cases hcase : s.diagram.mod ≠ 3 ∧ s.diagram.rm = 4
  · simp only [if_pos hcase] at hin ⊢
    rw [decodeSib_agree db h ?_]
    · obtain ⟨hreads, -⟩ := decodeSib_spec db buf (beginModrm s)
      cases hsib : decodeSib db buf (beginModrm s) with
      | mk ok s₂ =>
          cases ok with
          | false => rfl
          | true =>
              rw [hsib, hpc₁] at hreads
              have hpc₂ := hreads.pc_eq
              rw [hpc₁] at hpc₂
              change s₂.pc = s.pc + 1 + (sibWidths s.diagram.mod _).sum at hpc₂
              dsimp only
              rw [readDisp_agree db h (by omega)]
    · rw [hpc₁]
      change s.pc + 1 + (sibWidths s.diagram.mod _).sum ≤ n
      omega
  · simp only [if_neg hcase] at hin ⊢
    rw [readDisp_agree db h (by rw [hpc₁]; simp only [List.sum_nil] at hin; omega)]

/-- The byte at a position that `set_modrm_field` is given, 0 behind the buffer. -/
def Buffer.modrmAt (buf : Buffer) (pos : Nat) : UInt8 := (buf.peekByte pos).getD 0

/-- The opcode fetch outside the 3DNow map. -/
theorem fetchOpcode_of_ne (db : Db) {buf : Buffer} {s : Internal} {op : UInt8}
    (hmap : s.mapidx ≠ mapIdx0F0F) (hop : buf.peekByte s.pc = some op) :
    fetchOpcode db buf s =
      (true, (recordOpcode (s.advance 1) op).setModrmField (buf.modrmAt (s.advance 1).pc)) := by
  unfold fetchOpcode
  rw [if_neg hmap, hop]
  rfl

/-- The opcode fetch depends on the bytes up to the opcode and on the one behind it, which
a 3DNow opcode does not have. -/
theorem fetchOpcode_agree {db : Db} {buf buf' : Buffer} {s s' : Internal}
    (hf : fetchOpcode db buf s = (true, s')) (h : Agree buf buf' s'.pc) (hpc : s.pc < 255) :
    (s.mapidx = mapIdx0F0F → fetchOpcode db buf' s = (true, s')) ∧
      (s.mapidx ≠ mapIdx0F0F → ∃ t : Internal, t.pc = s'.pc ∧ t.mapidx = s'.mapidx ∧
        s' = t.setModrmField (buf.modrmAt s'.pc) ∧
        fetchOpcode db buf' s = (true, t.setModrmField (buf'.modrmAt s'.pc))) := by
  have hpc' := (fetchOpcode_fetched hf).splits.pc_eq
  simp only [Internal.cursor_pc] at hpc'
  constructor
  · intro hnow
    rw [if_pos hnow, List.sum_append] at hpc'
    simp only [List.sum_cons, List.sum_nil] at hpc'
    obtain ⟨hpeek, hpeek'⟩ := h.peekByte_eq
      (by simp only [modrmWidthsAt, List.sum_cons] at hpc'; omega : s.pc + 1 ≤ s'.pc)
    have hmodrm : decodeModrm db buf' (s.setModrmField (buf.address s.pc)) =
        decodeModrm db buf (s.setModrmField (buf.address s.pc)) :=
      decodeModrm_agree db h (by
        change s.pc + (modrmWidthsAt buf s.pc).sum ≤ s'.pc
        omega)
    rw [← hf]
    unfold fetchOpcode
    rw [if_pos hnow, if_pos hnow, hpeek', hpeek]
    dsimp only
    rw [hmodrm]
    have hreads := decodeModrm_reads db (s := s.setModrmField (buf.address s.pc)) hpeek rfl rfl
      (modrmByte_setModrmField s _)
    generalize decodeModrm db buf (s.setModrmField (buf.address s.pc)) = r at hreads ⊢
    obtain ⟨ok, s₁⟩ := r
    cases ok with
    | false => rfl
    | true =>
        have hpc₁ : s₁.pc = s.pc + (modrmWidthsAt buf s.pc).sum := hreads.pc_eq
        dsimp only
        rw [(h.peekByte_eq (by omega : s₁.pc + 1 ≤ s'.pc)).2]
  · intro hnow
    rw [if_neg hnow] at hpc'
    simp only [List.nil_append, List.sum_cons, List.sum_nil] at hpc'
    obtain ⟨hpeek, hpeek'⟩ := h.peekByte_eq (by omega : s.pc + 1 ≤ s'.pc)
    have hadv : (s.advance 1).pc = s'.pc :=
      (Nat.mod_eq_of_lt (by omega : s.pc + 1 < 256)).trans hpc'.symm
    rw [fetchOpcode_of_ne db hnow hpeek, hadv] at hf
    have hs' := (Prod.mk.inj hf).2
    refine ⟨recordOpcode (s.advance 1) (buf.address s.pc), hadv, ?_, hs'.symm, ?_⟩
    · rw [← hs']
      rfl
    · rw [fetchOpcode_of_ne db hnow (hpeek'.trans hpeek), hadv]

/-- The state of the lookup, for an opening that lies inside the stretch. -/
theorem fetched_agree {db : Db} {buf buf' : Buffer} {mode : MachineMode} {features : BitVec 32}
    {s u : Internal} (hpc : s.pc = 0) (hu : fetched db buf mode features s = some u)
    (h : Agree buf buf' u.pc)
    (hw : vectorWidth buf' (longModeOf mode features) (prefixCount buf (longModeOf mode features)) =
      vectorWidth buf (longModeOf mode features) (prefixCount buf (longModeOf mode features))) :
    (u.mapidx = mapIdx0F0F → fetched db buf' mode features s = some u) ∧
      (u.mapidx ≠ mapIdx0F0F → u = u.setModrmField (buf.modrmAt u.pc) ∧
        fetched db buf' mode features s = some (u.setModrmField (buf'.modrmAt u.pc))) := by
  have hopen := opened_of_selected hpc (selected_of_fetched hu)
  obtain ⟨hsum, -, hle⟩ := hopen.pc_bounds hpc
  change u.pc = _ at hsum
  change u.pc ≤ _ at hle
  have hlt := buf.nb_lt
  simp only [openingWidths, List.sum_append, List.sum_replicate_nat, readOf_sum, List.sum_cons,
    List.sum_nil] at hsum
  unfold fetched at hu ⊢
  cases hdf : defaultSizes mode with
  | none => simp [hdf] at hu
  | some df =>
      simp only [hdf] at hu ⊢
      have hpc₀ : (setMode mode df (initialise features s)).pc = 0 := hpc
      have hlong := setMode_longMode mode df features s
      have hscan := scanPrefixes_scanned buf df (setMode mode df (initialise features s))
      have hagree : scanPrefixes buf' df (setMode mode df (initialise features s)) =
          scanPrefixes buf df (setMode mode df (initialise features s)) := by
        refine scanPrefixes_agree h df (k := prefixCount buf (longModeOf mode features)) ?_ ?_ ?_
        · rw [hlong, hpc₀, Nat.zero_add]
          rfl
        · rw [hlong]
          exact hw
        · rw [hlong]
          omega
      rw [hagree]
      have hk : (prefixBytes buf (longModeOf mode features) 0).length =
        prefixCount buf (longModeOf mode features) := rfl
      rw [hlong, hpc₀, Nat.zero_add, hk] at hscan
      have hscan_pc := hscan.splits.pc_eq
      rw [hlong] at hscan_pc
      simp only [Internal.cursor_pc, hpc₀, List.sum_append, List.sum_replicate_nat,
        readOf_sum] at hscan_pc
      generalize scanPrefixes buf df (setMode mode df (initialise features s)) = s₁ at *
      cases hf : fetchOpcode db buf s₁ with
      | mk ok s₂ =>
          rw [hf] at hu
          cases ok with
          | false => simp at hu
          | true =>
              obtain rfl := Option.some.inj hu
              have hmap : s₂.mapidx = s₁.mapidx := (fetchOpcode_fetched hf).mapidx
              have hpc₁ : s₁.pc < 255 := by omega
              obtain ⟨hnow, hother⟩ := fetchOpcode_agree hf h hpc₁
              constructor
              · intro he
                rw [hnow (hmap.symm.trans he)]
              · intro he
                obtain ⟨t, -, -, hs₂, hfetch⟩ := hother fun h => he (hmap.trans h)
                generalize buf.modrmAt s₂.pc = m at hs₂ ⊢
                rw [hfetch]
                subst hs₂
                exact ⟨rfl, rfl⟩

/-- The opening of an instruction, when it lies inside the stretch. -/
theorem selected_agree {db : Db} {buf buf' : Buffer} {mode : MachineMode} {features : BitVec 32}
    {s s' : Internal} (hpc : s.pc = 0) (hsel : selected db buf mode features s = some s')
    (h : Agree buf buf' s'.pc)
    (hw : vectorWidth buf' (longModeOf mode features) (prefixCount buf (longModeOf mode features)) =
      vectorWidth buf (longModeOf mode features) (prefixCount buf (longModeOf mode features))) :
    (s'.mapidx = mapIdx0F0F → selected db buf' mode features s = some s') ∧
      (s'.mapidx ≠ mapIdx0F0F → ∃ t : Internal,
        s' = selectTemplate db (t.setModrmField (buf.modrmAt s'.pc)) ∧
        selected db buf' mode features s =
          some (selectTemplate db (t.setModrmField (buf'.modrmAt s'.pc)))) := by
  rw [selected_eq_map] at hsel
  obtain ⟨u, hu, rfl⟩ := Option.map_eq_some_iff.mp hsel
  obtain ⟨hnow, hother⟩ := fetched_agree hpc hu h hw
  rw [selected_eq_map]
  constructor
  · intro he
    rw [hnow he]
    rfl
  · intro he
    obtain ⟨hself, hfetched⟩ := hother he
    refine ⟨u, congrArg (selectTemplate db) hself, ?_⟩
    rw [hfetched]
    rfl

end Amed.X86
