import Amed.X86.Lookahead

/-!
# Openings left by a cut

A buffer that ends before the instruction does leaves the decoder an opening of its own when
the cut takes the ModRM byte away, which then counts as 0, or goes through a vector prefix,
whose first byte is then read as an opcode. Whether such an opening is marked undefined is a
matter of the entry it looks up and of that entry's argument list.
-/

namespace Amed.X86

open Bytes

/-! ## A shorter buffer -/

/-- The same bytes with another length. -/
def cut (ctx : Context) (length : Nat) : Context := { ctx with length := length }

theorem cut_nb (ctx : Context) {length : Nat} (h : length < 256) :
    (contextBuffer (cut ctx length)).nb = length := by
  change ((length : Int) % 256).toNat = length
  omega

section Shorter

variable {buf buf' : Buffer}

theorem agree_of_shorter (haddr : buf'.address = buf.address) {n : Nat} (hn : n ≤ buf.nb)
    (hn' : n ≤ buf'.nb) : Agree buf buf' n :=
  ⟨hn, hn', fun i _ => congrFun haddr i⟩

/-- A vector prefix the buffer cuts off is refused. -/
theorem vectorWidth_shorter (haddr : buf'.address = buf.address) (hle : buf'.nb ≤ buf.nb) (lm : Bool)
    {k : Nat} (hk : k < buf'.nb) :
    vectorWidth buf' lm k =
      if k + vectorWidth buf lm k ≤ buf'.nb then vectorWidth buf lm k else 0 := by
  obtain ⟨hpeek, hpeek'⟩ := (agree_of_shorter haddr hle le_rfl).peekByte_eq (Nat.succ_le_of_lt hk)
  unfold vectorWidth
  rw [hpeek', hpeek, Option.bind_some]
  cases vectorPrefix lm (buf.address k) with
  | none => simp
  | some p =>
      obtain ⟨n, accepts⟩ := p
      dsimp only
      by_cases hin : k + n ≤ buf'.nb
      · rw [(agree_of_shorter haddr hle le_rfl).peekBytes_eq hin]
        by_cases hacc : (buf.peekBytes k n).any accepts = true
        · simp only [hacc, if_true, hin]
        · simp [hacc]
      · have hnone : buf'.peekBytes k n = none := if_pos (by omega)
        rw [hnone]
        by_cases hacc : (buf.peekBytes k n).any accepts = true
        · simp [hacc, hin]
        · simp [hacc]

/-- An opening that is cut off and is still one: the cut goes through a vector prefix. -/
theorem openingWidths_shorter (haddr : buf'.address = buf.address) (hle : buf'.nb ≤ buf.nb)
    (lm : Bool) (hfits : (openingWidths buf' lm).sum ≤ buf'.nb)
    (hcut : buf'.nb < (openingWidths buf lm).sum) :
    prefixCount buf lm < buf'.nb ∧
      buf'.nb < prefixCount buf lm + vectorWidth buf lm (prefixCount buf lm) := by
  have hagree := agree_of_shorter haddr hle le_rfl
  have hback : Agree buf' buf buf'.nb := agree_of_shorter haddr.symm le_rfl hle
  simp only [openingWidths, List.sum_append, List.sum_replicate_nat, readOf_sum, List.sum_cons,
    List.sum_nil] at hfits hcut
  have hcount : prefixCount buf lm = prefixCount buf' lm := by
    refine congrArg List.length (hback.prefixBytes_eq ?_)
    change 0 + prefixCount buf' lm < buf'.nb
    omega
  rw [← hcount] at hfits
  generalize prefixCount buf lm = k at *
  have hk : k < buf'.nb := by omega
  obtain ⟨hpeek, hpeek'⟩ := hagree.peekByte_eq (Nat.succ_le_of_lt hk)
  refine ⟨hk, ?_⟩
  by_contra hlong
  have hw := vectorWidth_shorter haddr hle lm hk
  rw [if_pos (by omega)] at hw
  have hmap : escapeWidth buf' lm k = escapeWidth buf lm k ∧
      (ThreeDNow buf' k ↔ ThreeDNow buf k) := by
    unfold escapeWidth ThreeDNow
    unfold escapeWidth at hfits
    rw [hpeek'] at hfits ⊢
    by_cases hesc : buf.peekByte k = some 0x0f
    · simp only [hesc, if_true, true_and] at hfits ⊢
      have hpos := Nat.pos_of_ne_zero (mapField_bytes_ne_nil buf' k)
      have hnext := (hagree.peekByte_eq (by omega : k + 1 + 1 ≤ buf'.nb)).2
      rw [mapField, mapField, hnext]
      exact ⟨rfl, Iff.rfl⟩
    · simp only [hesc, if_false, false_and, hw, and_self]
  have hmodrm : ∀ pos, modrmWidthsAt buf' pos = modrmWidthsAt buf pos := by
    intro pos
    simp only [modrmWidthsAt, haddr]
  simp only [hmap.1, hmap.2, hmodrm] at hfits
  omega

end Shorter

/-! ## What an instruction is marked undefined for -/

/-- The end of an instruction whose template is selected. -/
def instructionEnd (db : Db) (buf : Buffer) (s : Internal) : Nat :=
  (operandWalk db buf.window s (operandStart db buf s)).pc

/-- Whether the instruction is marked undefined, at its selection or by an argument. -/
def marksUndefined (db : Db) (buf : Buffer) (s : Internal) : Bool :=
  (operandWalk db buf.window s (operandStart db buf s)).undefined

/-- An accepted instruction ends where its operands do, and is marked undefined by its template
or an operand. -/
theorem decodeInsn_end {db : Db} {ctx : Context} {stale s : Internal} {insn : Insn}
    (h : accepted db ctx stale insn = some s) :
    (decodeInsn db ctx stale insn).2.length = instructionEnd db (contextBuffer ctx) s ∧
      (decodeInsn db ctx stale insn).2.attributes.isUndefined =
        marksUndefined db (contextBuffer ctx) s := by
  have hview := ((accepted_opened h).layout db).view
  rw [decodeInsn_of_accepted h]
  exact ⟨congrArg View.pc hview, congrArg View.undefined hview⟩

theorem vectorWidth_of_map {buf : Buffer} {lm : Bool} {pos : Nat}
    (hop : buf.peekByte pos = some 0x0f) : vectorWidth buf lm pos = 0 := by
  rw [vectorWidth, hop]
  rfl

/-- A vector escape is one of the escapes. -/
theorem vectorWidth_le_escapeWidth (buf : Buffer) (lm : Bool) (pos : Nat) :
    vectorWidth buf lm pos ≤ escapeWidth buf lm pos := by
  unfold escapeWidth
  split
  · rw [vectorWidth_of_map ‹_›]
    exact Nat.zero_le _
  · exact le_rfl

namespace Walk

variable {win : Window} {w : Walk}

theorem is4_undefined (win : Window) (w : Walk) : (w.is4 win).undefined = w.undefined := by
  unfold is4
  split
  · rfl
  · split
    · rfl
    · rename_i hread
      obtain ⟨-, rfl⟩ := read_eq_some hread
      rfl

theorem register_undefined (win : Window) (w : Walk) (node : DbReg) :
    (w.register win node).undefined = w.undefined := by
  unfold register
  split
  · exact is4_undefined win w
  · rfl

theorem optionalRegister_undefined (win : Window) (w : Walk) (node : Option DbReg) :
    (w.optionalRegister win node).undefined = w.undefined := by
  cases node with
  | none => rfl
  | some node => exact register_undefined win w node

theorem memory_undefined (win : Window) (w : Walk) (i : Nat) (node : DbMem) :
    (w.memory win i node).undefined = w.undefined := by
  unfold memory
  dsimp only
  split
  · rfl
  · rw [optionalRegister_undefined, optionalRegister_undefined]

/-- Reading bytes for an operand reserves nothing. -/
theorem imm_undefined (db : Db) (win : Window) (w : Walk) (node : DbAny) :
    (w.imm db win node).2.undefined = w.undefined := by
  unfold imm
  split
  · rfl
  · split
    · exact is4_undefined win w
    · split
      · rfl
      · rename_i hread
        obtain ⟨-, rfl⟩ := read_eq_some hread
        rfl

theorem moffs_undefined (win : Window) (w : Walk) : (w.moffs win).2.undefined = w.undefined := by
  unfold moffs
  split
  · rfl
  · split
    · rfl
    · rename_i hread
      obtain ⟨-, rfl⟩ := read_eq_some hread
      rfl

theorem ptr_undefined (win : Window) (w : Walk) : (w.ptr win).2.undefined = w.undefined := by
  unfold ptr
  split
  · rfl
  · rename_i hseg
    obtain ⟨-, rfl⟩ := read_eq_some hseg
    split
    · rfl
    · split
      · rfl
      · rename_i hoff
        obtain ⟨-, rfl⟩ := read_eq_some hoff
        rfl

/-- The node swizzles a memory operand by a reserved row. -/
def reserves (w : Walk) : DbNode → Bool
  | .swz node => !node.onRegister && w.vmem.isSome && (node.row w.sss).reserved
  | _ => false

/-- Only a swizzle can meet a reserved value. -/
theorem swz_undefined (w : Walk) (node : DbSwz) :
    (w.swz node).2.undefined = (w.undefined || w.reserves (.swz node)) := by
  unfold swz reserves
  cases honreg : node.onRegister with
  | true => simp [honreg]
  | false =>
      cases hvmem : w.vmem with
      | none => simp
      | some j => cases hrow : (node.row w.sss).reserved <;> simp [honreg, hrow]

/-- A node marks the instruction undefined only for a reserved row. -/
theorem node_undefined (db : Db) (win : Window) (w : Walk) (i : Nat) (node : DbNode) :
    (w.node db win i node).2.undefined = (w.undefined || w.reserves node) := by
  have hplain : (w.touch i).undefined = (w.undefined || false) := (Bool.or_false _).symm
  cases node with
  | swz node => exact swz_undefined (w.touch i) node
  | reg node => exact (register_undefined win (w.touch i) node).trans hplain
  | preg node => exact (register_undefined win (w.touch i) node).trans hplain
  | vreg node => exact (register_undefined win (w.touch i) node).trans hplain
  | mem node => exact (memory_undefined win (w.touch i) i node).trans hplain
  | agen node => exact (memory_undefined win (w.touch i) i node).trans hplain
  | mib node => exact (memory_undefined win (w.touch i) i node).trans hplain
  | imm node => exact (imm_undefined db win (w.touch i) node).trans hplain
  | rel node => exact (imm_undefined db win (w.touch i) node).trans hplain
  | shift node => exact (imm_undefined db win (w.touch i) node).trans hplain
  | rotate node => exact (imm_undefined db win (w.touch i) node).trans hplain
  | cc node => exact (imm_undefined db win (w.touch i) node).trans hplain
  | moffs node => exact (moffs_undefined win (w.touch i)).trans hplain
  | ptr node => exact (ptr_undefined win (w.touch i)).trans hplain
  | bcst => exact hplain
  | sbcst node => exact hplain
  | sae => exact hplain
  | evh => exact hplain
  | rc node => exact hplain
  | other => exact hplain

/-- An argument list reaches a swizzle of its memory operand whose row is reserved. -/
def MeetsReserved (db : Db) (win : Window) (nodes : List DbNode) (i : Nat) (w : Walk) : Prop :=
  ∃ before node rest, nodes = before ++ .swz node :: rest ∧
    (Walk.nodes db win before i w).1 = true ∧
      (Walk.nodes db win before i w).2.reserves (.swz node) = true

/-- A whole argument list marks the instruction undefined only for a reserved row. -/
theorem nodes_undefined (db : Db) (win : Window) (nodes : List DbNode) (i : Nat) (w : Walk) :
    (Walk.nodes db win nodes i w).2.undefined = true ↔
      w.undefined = true ∨ MeetsReserved db win nodes i w := by
  induction nodes generalizing i w with
  | nil =>
      refine ⟨.inl, fun h => h.resolve_right ?_⟩
      rintro ⟨before, node, rest, hnodes, -⟩
      simp at hnodes
  | cons node nodes ih =>
      have hnode := node_undefined db win w i node
      have hhead : w.reserves node = true → MeetsReserved db win (node :: nodes) i w := by
        intro hres
        cases node with
        | swz node => exact ⟨[], node, nodes, rfl, rfl, hres⟩
        | _ => exact absurd hres (by simp [reserves])
      unfold Walk.nodes
      cases hstep : w.node db win i node with
      | mk ok v =>
          rw [hstep] at hnode
          have hstart : v.undefined = true ↔ w.undefined = true ∨ w.reserves node = true := by
            rw [hnode, Bool.or_eq_true]
          cases ok with
          | false =>
              dsimp only
              rw [hstart]
              refine or_congr_right ⟨hhead, ?_⟩
              rintro ⟨before, swz, rest, hnodes, hok, hres⟩
              cases before with
              | nil =>
                  obtain ⟨rfl, -⟩ := List.cons.inj hnodes
                  exact hres
              | cons first before =>
                  obtain ⟨rfl, -⟩ := List.cons.inj hnodes
                  simp [Walk.nodes, hstep] at hok
          | true =>
              dsimp only
              rw [ih, hstart, or_assoc]
              refine or_congr_right ⟨?_, ?_⟩
              · rintro (hres | ⟨before, swz, rest, rfl, hok, hres⟩)
                · exact hhead hres
                · refine ⟨node :: before, swz, rest, rfl, ?_, ?_⟩
                  · simpa [Walk.nodes, hstep] using hok
                  · simpa [Walk.nodes, hstep] using hres
              · rintro ⟨before, swz, rest, hnodes, hok, hres⟩
                cases before with
                | nil =>
                    obtain ⟨rfl, -⟩ := List.cons.inj hnodes
                    exact .inl hres
                | cons first before =>
                    obtain ⟨rfl, rfl⟩ := List.cons.inj hnodes
                    simp only [Walk.nodes, hstep] at hok hres
                    exact .inr ⟨before, swz, rest, rfl, hok, hres⟩

end Walk

/-! ## The openings -/

/-- The entry looked up for a byte behind the opcode is marked undefined: as a vector
instruction behind a prefix it must not have, as a miss, or by an argument of its template. -/
def EntryUndefined (db : Db) (buf : Buffer) (u : Internal) (m : UInt8) : Prop :=
  let d := u.diagram.hashSizes.setModrmField m
  let entry := db.lookup (u.mapidx + d.opcode.toNat) d.hashcode
  let s := placeTemplate db u m entry
  (d.enc ≠ encodingNone ∧ u.vfpc ≠ 0) ∨ entry / 2 ^ 16 = 0 ∨
    Walk.MeetsReserved db buf.window (db.arguments (db.templates (entry % 2 ^ 16)).arguments) 0
      { s.view with pc := operandStart db buf s, fields := [] }

/-- The state of the lookup when the first byte behind the prefixes is the opcode. -/
def opcodeBehindPrefixes (ctx : Context) (df : DefaultSizes) (stale : Internal) (insn : Insn) :
    Internal :=
  let lm := longModeOf ctx.machineMode ctx.features
  let s := (prefixBytes (contextBuffer ctx) lm 0).foldl (applyPrefix df)
    (setMode ctx.machineMode df (initialise ctx.features (startState stale insn)))
  recordOpcode (s.advance 1) (ctx.address s.pc)

section Openings

variable {db : Db} {ctx : Context} {stale s u : Internal} {insn : Insn}

/-- What is looked up is accepted with the template that is selected for it. -/
theorem accepted_of_lookedUp (hu : lookedUp db ctx stale insn = some u) :
    accepted db ctx stale insn = some (selectTemplate db u) :=
  selected_of_fetched hu

/-- Nothing is marked undefined before the lookup. -/
theorem lookedUp_isUndefined (hu : lookedUp db ctx stale insn = some u) :
    u.insn.attributes.isUndefined = false := by
  unfold lookedUp fetched at hu
  cases hdf : defaultSizes ctx.machineMode with
  | none => simp [hdf] at hu
  | some df =>
      simp only [hdf] at hu
      have hscan := scanPrefixes_scanned (contextBuffer ctx) df
        (setMode ctx.machineMode df (initialise ctx.features (startState stale insn)))
      generalize scanPrefixes (contextBuffer ctx) df _ = s₁ at hscan hu
      cases hf : fetchOpcode db (contextBuffer ctx) s₁ with
      | mk ok s₂ =>
          rw [hf] at hu
          cases ok with
          | false => simp at hu
          | true =>
              obtain rfl := Option.some.inj hu
              exact (fetchOpcode_fetched hf).frame.isUndefined.trans hscan.frame.isUndefined

/-- Whether a decoded instruction is marked undefined. -/
theorem decodeInsn_isUndefined {m : UInt8}
    (hu : lookedUp db ctx stale insn = some (u.setModrmField m)) :
    (decodeInsn db ctx stale insn).2.attributes.isUndefined = true ↔
      EntryUndefined db (contextBuffer ctx) u m := by
  have hclear := lookedUp_isUndefined hu
  change u.insn.attributes.isUndefined = false at hclear
  rw [(decodeInsn_end (accepted_of_lookedUp hu)).2, selectTemplate_eq]
  refine (Walk.nodes_undefined _ _ _ _ _).trans ((or_congr_left ?_).trans or_assoc)
  change (u.insn.attributes.isUndefined || _ || _) = true ↔ _
  rw [hclear, Bool.false_or, Bool.or_eq_true, Bool.and_eq_true, decide_eq_true_eq,
    decide_eq_true_eq, decide_eq_true_eq]
  rfl

/-- A cut behind the opcode leaves the vector prefix alone. -/
theorem vectorWidth_cut (h : accepted db ctx stale insn = some s) {length : Nat}
    (hpc : s.pc ≤ length) (hle : length ≤ (contextBuffer ctx).nb) :
    let lm := longModeOf ctx.machineMode ctx.features
    let k := prefixCount (contextBuffer ctx) lm
    vectorWidth (contextBuffer (cut ctx length)) lm k = vectorWidth (contextBuffer ctx) lm k := by
  obtain ⟨hsum, -⟩ := (accepted_opened h).pc_bounds rfl
  have hlt := (contextBuffer ctx).nb_lt
  have hnb := cut_nb ctx (by omega : length < 256)
  dsimp only
  generalize longModeOf ctx.machineMode ctx.features = lm at hsum ⊢
  simp only [openingWidths, List.sum_append, List.sum_replicate_nat, readOf_sum, List.sum_cons,
    List.sum_nil] at hsum
  generalize prefixCount (contextBuffer ctx) lm = k at hsum ⊢
  have hvec := vectorWidth_le_escapeWidth (contextBuffer ctx) lm k
  have haddr : (contextBuffer (cut ctx length)).address = (contextBuffer ctx).address := rfl
  have hw := vectorWidth_shorter haddr (by omega) lm (k := k) (by omega)
  rw [if_pos (by omega)] at hw
  exact hw

/-- Without its ModRM byte an instruction is looked up with 0 in its place. -/
theorem lookedUp_cut_modrm (hu : lookedUp db ctx stale insn = some u)
    (hmap : u.mapidx ≠ mapIdx0F0F) :
    lookedUp db (cut ctx u.pc) stale insn = some (u.setModrmField 0) := by
  have hacc := accepted_of_lookedUp hu
  obtain ⟨-, -, hle⟩ := (accepted_opened hacc).pc_bounds rfl
  change u.pc ≤ _ at hle
  have hlt := (contextBuffer ctx).nb_lt
  have hnb := cut_nb ctx (by omega : u.pc < 256)
  have haddr : (contextBuffer (cut ctx u.pc)).address = (contextBuffer ctx).address := rfl
  have hagree := agree_of_shorter haddr hle hnb.ge
  obtain ⟨-, hother⟩ := fetched_agree rfl hu hagree (vectorWidth_cut hacc le_rfl hle)
  have hzero : (contextBuffer (cut ctx u.pc)).modrmAt u.pc = 0 := by
    rw [Buffer.modrmAt, peekByte_eq_none.mpr (by omega)]
    rfl
  rw [hzero] at hother
  exact (hother hmap).2

/-- A vector prefix that is refused leaves its first byte to be fetched as the opcode. -/
theorem leaveLoop_of_refused {buf : Buffer} {s : Internal} {op : UInt8}
    (hop : buf.peekByte s.pc = some op) (hmap : op ≠ 0x0f)
    (hwidth : vectorWidth buf s.diagram.longMode s.pc = 0) : leaveLoop buf s = s := by
  rw [leaveLoop, hop]
  rcases decodeEscape_cases hop with ⟨-, -, hs⟩ | ⟨-, hne, -⟩ | ⟨rfl, -⟩
  · exact hs
  · exact absurd hwidth hne
  · exact absurd rfl hmap

/-- Behind the prefixes the decoder stands at the end of their bytes, has met no map, and is in
the mode of the input. -/
theorem foldl_prefixBytes_opening {df : DefaultSizes} {s : Internal} {lm : Bool}
    (hlm : longModeOf ctx.machineMode ctx.features = lm)
    (hs : s = (prefixBytes (contextBuffer ctx) lm 0).foldl (applyPrefix df)
      (setMode ctx.machineMode df (initialise ctx.features (startState stale insn)))) :
    s.pc = prefixCount (contextBuffer ctx) lm ∧ s.mapidx ≠ mapIdx0F0F ∧
      s.diagram.longMode = lm := by
  have hfold := foldl_prefixBytes_pc (contextBuffer ctx) df
    (setMode ctx.machineMode df (initialise ctx.features (startState stale insn)))
  rw [setMode_longMode, hlm] at hfold
  subst hs
  refine ⟨hfold.trans (Nat.zero_add _), ?_, ?_⟩
  · rw [foldl_applyPrefix_mapidx]
    exact (by decide : (0 : Nat) ≠ mapIdx0F0F)
  · exact (foldl_applyPrefix_frame df _ _).longMode.trans hlm

/-- A vector prefix that does not fit is none, and its first byte is not that of a map. -/
theorem vectorWidth_cut_short {length k : Nat} {lm : Bool} (hle : length ≤ (contextBuffer ctx).nb)
    (hopcode : k < length) (hcut : length < k + vectorWidth (contextBuffer ctx) lm k) :
    ctx.address k ≠ 0x0f ∧ vectorWidth (contextBuffer (cut ctx length)) lm k = 0 := by
  have hlt := (contextBuffer ctx).nb_lt
  have hnb := cut_nb ctx (by omega : length < 256)
  refine ⟨fun he => ?_, ?_⟩
  · have hop : (contextBuffer ctx).peekByte k = some 0x0f :=
      peekByte_eq_some.mpr ⟨by omega, he.symm⟩
    rw [vectorWidth_of_map hop] at hcut
    omega
  · have haddr : (contextBuffer (cut ctx length)).address = (contextBuffer ctx).address := rfl
    rw [vectorWidth_shorter haddr (by omega) lm (by omega), if_neg (by omega)]

/-- A vector prefix that is cut off leaves its first byte as the opcode. -/
theorem lookedUp_cut_vector (db : Db) {df : DefaultSizes} (stale : Internal) (insn : Insn)
    (hdf : defaultSizes ctx.machineMode = some df) {length k : Nat} {lm : Bool}
    (hlm : longModeOf ctx.machineMode ctx.features = lm)
    (hk : prefixCount (contextBuffer ctx) lm = k) (hle : length ≤ (contextBuffer ctx).nb)
    (hopcode : k < length) (hcut : length < k + vectorWidth (contextBuffer ctx) lm k) :
    lookedUp db (cut ctx length) stale insn =
      some ((opcodeBehindPrefixes ctx df stale insn).setModrmField
        ((contextBuffer (cut ctx length)).modrmAt (k + 1))) := by
  have hlt := (contextBuffer ctx).nb_lt
  have haddr : (contextBuffer (cut ctx length)).address = (contextBuffer ctx).address := rfl
  have hagree := agree_of_shorter haddr hle (cut_nb ctx (by omega : length < 256)).ge
  have hbytes : prefixBytes (contextBuffer (cut ctx length)) lm 0 =
      prefixBytes (contextBuffer ctx) lm 0 := by
    refine hagree.prefixBytes_eq ?_
    change 0 + prefixCount (contextBuffer ctx) lm < length
    omega
  obtain ⟨s, hs⟩ : ∃ s, s = (prefixBytes (contextBuffer ctx) lm 0).foldl (applyPrefix df)
      (setMode ctx.machineMode df (initialise ctx.features (startState stale insn))) := ⟨_, rfl⟩
  obtain ⟨hpc, hmap, hlong⟩ := foldl_prefixBytes_opening hlm hs
  rw [hk] at hpc
  obtain ⟨hmapByte, hwidth⟩ := vectorWidth_cut_short hle hopcode hcut
  obtain ⟨hpeek, hpeek'⟩ := hagree.peekByte_eq (Nat.succ_le_of_lt hopcode)
  rw [← hpc] at hpeek hpeek' hmapByte hwidth
  rw [← hlong] at hwidth
  have hop : (contextBuffer (cut ctx length)).peekByte s.pc = some (ctx.address s.pc) :=
    hpeek'.trans hpeek
  have hadv : (s.advance 1).pc = k + 1 := by
    change (s.pc + 1) % 256 = k + 1
    omega
  have hstate : opcodeBehindPrefixes ctx df stale insn =
      recordOpcode (s.advance 1) (ctx.address s.pc) := by
    subst hs hlm
    rfl
  -- the cut leaves no vector prefix, so its first byte is fetched as the opcode
  have hfetch : fetchOpcode db (contextBuffer (cut ctx length))
      (leaveLoop (contextBuffer (cut ctx length)) s) =
        (true, (opcodeBehindPrefixes ctx df stale insn).setModrmField
          ((contextBuffer (cut ctx length)).modrmAt (k + 1))) := by
    rw [leaveLoop_of_refused hop hmapByte hwidth, hstate, fetchOpcode_of_ne db hmap hop, hadv]
  have hdf' : defaultSizes (cut ctx length).machineMode = some df := hdf
  subst hs hlm
  exact lookedUp_of_fetchOpcode hdf' hbytes hfetch

end Openings

end Amed.X86
