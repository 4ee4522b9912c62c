import Amed.X86.RegisterNumber
import Amed.X86.Visits

/-!
# Memory operands with a SIB byte

The base and the index register of a memory operand that is encoded with a SIB byte, and when
`decode_arg_mem` follows the architecture for them.

## Implementation notes

`decode_sib` settles whether there is an index before the operand is known, from the encoding: it
takes every SIB byte behind a vector prefix for that of a vector index.
-/

namespace Amed.X86

open Bytes

/-! ## The operand of the architecture -/

/-- The class of the index of a vector SIB operand. -/
def Symbol.vsibClass : Symbol → Option RegisterClass
  | .vmx => Symbol.xmmreg.registerClass 0 0
  | .vmy => Symbol.ymmreg.registerClass 0 0
  | .vmz => Symbol.zmmreg.registerClass 0 0
  | _ => Option.none

/-- The registers of a memory operand with a SIB byte. There is no base with mod 0 and base 5, and no
index with index 4 and no extension; a vector index is always there. -/
structure Diagram.FollowsSib (d : Diagram) (symbol : Symbol) (base regoff : Nat) : Prop where
  noBase : base = Register.none ↔ d.mod = 0 ∧ d.base = 5
  noIndex : symbol.vsibClass = none → (regoff = Register.none ↔ d.index = 4 ∧ d.x = false)
  noStack : symbol.vsibClass = none → regoff ∉ [Register.sp, Register.esp, Register.rsp]
  vector : ∀ c, symbol.vsibClass = some c →
    regoff = c.register (d.registerNumber 0 .sibIndex true true)

/-- Where the index is 4 without an extension, the encoding is that of the operand's kind. -/
def Diagram.KindOfEncoding (d : Diagram) (symbol : Symbol) : Prop :=
  d.index = 4 → d.x = false → (d.enc = encodingNone ↔ symbol.vsibClass = none)

/-- The memory operand of a node. -/
def DbNode.memory : DbNode → Option DbMem
  | .mem node | .agen node | .mib node => some node
  | _ => none

/-! ## X is of 64-bit mode -/

/-- Outside 64-bit mode there is no X. -/
def Diagram.XInLongMode (d : Diagram) : Prop := d.longMode = false → d.x = false

variable {df : DefaultSizes} {s s' : Internal} {buf : Buffer} {db : Db}

theorem applyPrefix_x {op : UInt8} (hop : isPrefixByte s.diagram.longMode op = true)
    (h : s.diagram.XInLongMode) : (applyPrefix df s op).diagram.XInLongMode := by
  change (prefixEffect df s op).diagram.XInLongMode
  unfold prefixEffect
  split
  · rename_i hrex
    intro hlong
    rw [isPrefixByte, if_pos hrex] at hop
    exact absurd (hop.symm.trans hlong) (by decide)
  · split <;> exact h

theorem foldl_applyPrefix_x (df : DefaultSizes) (ps : List UInt8) {longMode : Bool}
    (hps : ∀ op ∈ ps, isPrefixByte longMode op = true) (hlong : s.diagram.longMode = longMode)
    (h : s.diagram.XInLongMode) : (ps.foldl (applyPrefix df) s).diagram.XInLongMode := by
  induction ps generalizing s with
  | nil => exact h
  | cons op ps ih =>
      obtain ⟨hop, hps⟩ := List.forall_mem_cons.mp hps
      apply ih hps
      · exact (applyPrefix_frame df s op).longMode.trans hlong
      · exact applyPrefix_x (by rw [hlong]; exact hop) h

/-- The guard of the vector prefixes that have X. -/
theorem x_of_guard {longMode r x b : Bool} (h : ¬(!longMode && !(r && x && b)) = true)
    (hlong : longMode = false) : (!x) = false := by
  revert h hlong
  cases longMode <;> cases r <;> cases x <;> cases b <;> decide

theorem decodeVex2_x (hs : s.diagram.XInLongMode) (h : decodeVex2 buf s = some s') :
    s'.diagram.XInLongMode := by
  unfold decodeVex2 at h
  split at h
  · rename_i byte0 byte1 s₁ htake
    rw [← takeBytes_diagram htake] at hs
    split at h
    · cases h
    · cases h
      obtain ⟨p, f, g, hpp⟩ := s₁.diagram.setPpField_eq (bits byte1 0 2)
      obtain ⟨vl, ll, -, hll⟩ := (s₁.diagram.setPpField (bits byte1 0 2)).setLlField_eq
        ((bits_lt byte1 2 1).trans (by decide))
      rw [hll, hpp]
      exact hs
  · cases h

theorem decodeVex3_x (h : decodeVex3 buf s = some s') : s'.diagram.XInLongMode := by
  unfold decodeVex3 at h
  split at h
  · rename_i byte0 byte1 byte2 s₁ htake
    split at h
    · cases h
    · rename_i hguard
      split at h
      · cases h
      · cases h
        obtain ⟨p, f, g, hpp⟩ :=
          (s₁.diagram.setWField (bit byte2 7)).setPpField_eq (bits byte2 0 2)
        obtain ⟨vl, ll, -, hll⟩ :=
          ((s₁.diagram.setWField (bit byte2 7)).setPpField (bits byte2 0 2)).setLlField_eq
            ((bits_lt byte2 2 1).trans (by decide))
        rw [hll, hpp]
        exact x_of_guard hguard
  · cases h

theorem decodeXop_x (h : decodeXop buf s = some s') : s'.diagram.XInLongMode := by
  unfold decodeXop at h
  split at h
  · rename_i byte0 byte1 byte2 s₁ htake
    split at h
    · cases h
    · rename_i hguard
      split at h
      · cases h
      · cases h
        obtain ⟨vl, ll, -, hll⟩ := Diagram.setLlField_eq (Diagram.setWField { s₁.diagram with
          enc := encodingXop, hasRex := true
          r := !bit byte1 7, x := !bit byte1 6, b := !bit byte1 5
          vvvv := 15 - bits byte2 3 4 } (bit byte2 7)) ((bits_lt byte2 2 1).trans (by decide))
        rw [hll]
        exact x_of_guard hguard
  · cases h

theorem decodeEvex_x {byte1 byte2 byte3 : UInt8} (h : decodeEvex s byte1 byte2 byte3 = some s') :
    s'.diagram.XInLongMode := by
  unfold decodeEvex at h
  split at h
  · cases h
  · rename_i hguard
    split at h
    · cases h
    · cases h
      obtain ⟨p, f, g, hpp⟩ := s.diagram.setPpField_eq (bits byte2 0 2)
      obtain ⟨vl, ll, hvl, hll⟩ := ((s.diagram.setPpField (bits byte2 0 2)).setWField
        (bit byte2 7)).setLlField_eq (bits_lt byte3 5 2)
      rw [hll, hpp]
      exact x_of_guard hguard

/-- An MVEX prefix is read in 64-bit mode only. -/
theorem decodeMvex_x {byte1 byte2 byte3 : UInt8} (hlong : s.diagram.longMode = true)
    (h : decodeMvex s byte1 byte2 byte3 = some s') : s'.diagram.XInLongMode := by
  unfold decodeMvex at h
  split at h
  · cases h
  · cases h
    obtain ⟨p, f, g, hpp⟩ := s.diagram.setPpField_eq (bits byte2 0 2)
    rw [hpp]
    exact fun hshort => absurd (hlong.symm.trans hshort) (by decide)

theorem decodeMevex_x (h : decodeMevex buf s = some s') : s'.diagram.XInLongMode := by
  unfold decodeMevex at h
  split at h
  · split at h
    · split at h
      · rename_i hlong
        exact decodeMvex_x (s := (s.advance 4).addBytecode .mvex _) hlong h
      · cases h
    · exact decodeEvex_x h
  · cases h

theorem decodeEscape_x (hs : s.diagram.XInLongMode) (op : UInt8) :
    (decodeEscape buf s op).diagram.XInLongMode := by
  have hattempt : ∀ {o : Option Internal}, (∀ s', o = some s' → s'.diagram.XInLongMode) →
      (o.getD s).diagram.XInLongMode := by
    intro o h
    cases o with
    | none => exact hs
    | some s' => exact h s' rfl
  unfold decodeEscape
  split
  · unfold decodeMap
    dsimp only
    split <;> exact hs
  · exact hattempt fun _ => decodeXop_x
  · exact hattempt fun _ => decodeMevex_x
  · exact hattempt fun _ => decodeVex3_x
  · exact hattempt fun _ => decodeVex2_x hs
  · exact hs

theorem scanPrefixes_x (buf : Buffer) (df : DefaultSizes) (hs : s.diagram.XInLongMode) :
    (scanPrefixes buf df s).diagram.XInLongMode := by
  have hfold := foldl_applyPrefix_x df (prefixBytes buf s.diagram.longMode s.pc)
    (fun _ hop => List.mem_takeWhile_imp hop) rfl hs
  rw [scanPrefixes_eq, leaveLoop]
  split
  · exact hfold
  · exact decodeEscape_x hfold _

/-! ## The flags of a SIB byte -/

/-- What `decode_sib` settles about the registers. -/
structure Internal.SibFlags (s : Internal) : Prop where
  index : s.hasIndex =
    (s.diagram.enc ≠ encodingNone || !(!s.diagram.x && s.diagram.index = 4))
  base : s.hasBase = !(s.diagram.base = 5 && s.diagram.mod = 0)

/-- A SIB byte that has been read has been settled. -/
def Internal.SibSettled (s : Internal) : Prop := s.diagram.hasSib = true → s.SibFlags

theorem setDisp_sibSettled {disp : Int} {n : Nat} (hs : s.SibSettled)
    (h : setDisp db s disp n = some s') : s'.SibSettled := by
  unfold setDisp at h
  split at h <;> cases h <;> exact fun hsib => ⟨(hs hsib).index, (hs hsib).base⟩

theorem readDisp_sibSettled (db : Db) (buf : Buffer) (hs : s.SibSettled) (n : Nat) :
    (readDisp db buf s n).2.SibSettled := by
  unfold readDisp
  split
  · exact hs
  · split
    · exact hs
    · rename_i s' hdisp
      unfold decodeDisp at hdisp
      split at hdisp
      · cases hdisp
      · rename_i s₁ htake
        have hs₁ : s₁.SibSettled := by
          obtain ⟨-, -, rfl⟩ := takeBytes_eq_some.mp htake
          exact fun hsib => ⟨(hs hsib).index, (hs hsib).base⟩
        exact setDisp_sibSettled hs₁ hdisp

theorem decodeSib_sibSettled (hsib : s.diagram.hasSib = false) (hbase : s.hasBase = true) :
    (decodeSib db buf s).2.SibSettled := by
  unfold decodeSib
  split
  · rename_i sib s₁ htake
    obtain ⟨-, -, rfl⟩ := takeBytes_eq_some.mp htake
    refine readDisp_sibSettled db buf ?_ _
    intro _
    constructor
    · rfl
    · change (s.hasBase && !(decide (bits sib 0 3 = 5) && decide (s.diagram.mod = 0))) = _
      rw [hbase, Bool.true_and]
      rfl
  · intro hread
    rw [hsib] at hread
    cases hread

theorem decodeModrm_sibSettled (db : Db) (buf : Buffer) (hsib : s.diagram.hasSib = false) :
    (decodeModrm db buf s).2.SibSettled := by
  have hbegin : (beginModrm s).SibSettled := by
    intro hread
    exact absurd (hsib.symm.trans hread) (by decide)
  have hfirst : (if s.diagram.mod ≠ 3 ∧ s.diagram.rm = 4 then decodeSib db buf (beginModrm s)
      else (true, beginModrm s)).2.SibSettled := by
    split
    · rename_i hform
      refine decodeSib_sibSettled hsib ?_
      simp [beginModrm, hform.2]
    · exact hbegin
  unfold decodeModrm
  dsimp only
  generalize (if s.diagram.mod ≠ 3 ∧ s.diagram.rm = 4 then decodeSib db buf (beginModrm s)
    else (true, beginModrm s)) = r at hfirst
  obtain ⟨ok, t⟩ := r
  cases ok with
  | false => exact hfirst
  | true =>
      have hdisp := readDisp_sibSettled db buf hfirst
        (modrmDispSize s.diagram.mod s.diagram.rm)
      dsimp only
      generalize readDisp db buf t (modrmDispSize s.diagram.mod s.diagram.rm) = r at hdisp
      obtain ⟨ok, u⟩ := r
      cases ok with
      | false => exact hdisp
      | true => exact fun hread => ⟨(hdisp hread).index, (hdisp hread).base⟩

/-- Before the ModRM byte there is no SIB byte, unless the opcode lies behind both. -/
theorem fetchOpcode_sibSettled (hsib : s.diagram.hasSib = false)
    (h : fetchOpcode db buf s = (true, s')) :
    s'.SibSettled ∧ (s'.mapidx ≠ mapIdx0F0F → s'.diagram.hasSib = false) := by
  unfold fetchOpcode at h
  split at h
  · rename_i hmap
    split at h
    · cases h
    · rename_i modrm _
      have hsettled := decodeModrm_sibSettled db buf
        (show (s.setModrmField modrm).diagram.hasSib = false from hsib)
      have hcarried := decodeModrm_carried db buf (s.setModrmField modrm)
      generalize decodeModrm db buf (s.setModrmField modrm) = r at h hsettled hcarried
      obtain ⟨ok, t⟩ := r
      cases ok with
      | false => cases h
      | true =>
          dsimp only at h
          split at h
          · cases h
          · cases h
            constructor
            · exact fun hread => ⟨(hsettled hread).index, (hsettled hread).base⟩
            · intro hne
              have hmapidx : t.mapidx = s.mapidx := congrArg Carried.mapidx hcarried
              exact absurd (hmapidx.trans hmap) hne
  · split at h
    · cases h
    · cases h
      constructor
      · intro hread
        exact absurd (hsib.symm.trans hread) (by decide)
      · exact fun _ => hsib

theorem selectTemplate_sib (db : Db) (s : Internal) :
    (selectTemplate db s).diagram.hasSib = s.diagram.hasSib ∧
      (s.SibSettled → (selectTemplate db s).SibSettled) := by
  have hfields : (selectTemplate db s).diagram.hasSib = s.diagram.hasSib ∧
      (selectTemplate db s).diagram.enc = s.diagram.enc ∧
      (selectTemplate db s).diagram.x = s.diagram.x ∧
      (selectTemplate db s).diagram.index = s.diagram.index ∧
      (selectTemplate db s).diagram.base = s.diagram.base ∧
      (selectTemplate db s).diagram.mod = s.diagram.mod := by
    change (s.diagram.hashSizes.overrideSize _).hasSib = _ ∧
      (s.diagram.hashSizes.overrideSize _).enc = _ ∧
      (s.diagram.hashSizes.overrideSize _).x = _ ∧ (s.diagram.hashSizes.overrideSize _).index = _ ∧
      (s.diagram.hashSizes.overrideSize _).base = _ ∧ (s.diagram.hashSizes.overrideSize _).mod = _
    unfold Diagram.overrideSize Diagram.hashSizes
    dsimp only
    repeat' split
    all_goals exact ⟨rfl, rfl, rfl, rfl, rfl, rfl⟩
  obtain ⟨hsib, henc, hx, hindex, hbase, hmod⟩ := hfields
  refine ⟨hsib, fun hs hread => ?_⟩
  obtain ⟨hi, hb⟩ := hs (hsib.symm.trans hread)
  constructor
  · rw [henc, hx, hindex]
    exact hi
  · rw [hbase, hmod]
    exact hb

/-- An accepted instruction has a SIB byte, by the ModRM byte of its encoding. -/
structure ReadsSib (db : Db) (buf : Buffer) (s : Internal) : Prop where
  modrm : (db.encodings s.encoding).hasModrm = true
  sib : (decodeRealModrm db buf s).diagram.hasSib = true

theorem decodeRealModrm_sibFlags {ctx : Context} {stale : Internal} {insn : Insn}
    (h : accepted db ctx stale insn = some s) (hfeat : FeatureBits ctx.features)
    (hsib : ReadsSib db (contextBuffer ctx) s) :
    (decodeRealModrm db (contextBuffer ctx) s).SibFlags := by
  obtain ⟨df, s₂, hdf, hf, rfl⟩ := accepted_fetched h
  obtain ⟨hstart, henc⟩ := setMode_opening hfeat hdf (startState stale insn)
  have hscan := scanPrefixes_opening (contextBuffer ctx) (defaultSizes_le hdf) hstart henc
  obtain ⟨hsettled, hmap⟩ := fetchOpcode_sibSettled hscan.noSib hf
  obtain ⟨hsame, hselect⟩ := selectTemplate_sib db s₂
  have hread := hsib.sib
  unfold decodeRealModrm at hread ⊢
  rw [if_pos hsib.modrm] at hread ⊢
  split
  · rename_i hnow
    rw [if_pos hnow] at hread
    exact hselect hsettled hread
  · rename_i hnow
    rw [if_neg hnow] at hread
    exact decodeModrm_sibSettled db _ (hsame.trans (hmap hnow)) hread

theorem decodeRealModrm_x {ctx : Context} {stale : Internal} {insn : Insn}
    (h : accepted db ctx stale insn = some s) :
    (decodeRealModrm db (contextBuffer ctx) s).diagram.XInLongMode := by
  obtain ⟨df, s₂, hdf, hf, rfl⟩ := accepted_fetched h
  have hstart : (setMode ctx.machineMode df (initialise ctx.features
      (startState stale insn))).diagram.XInLongMode := fun _ => rfl
  have hscan := scanPrefixes_x (contextBuffer ctx) df hstart
  have hcarried := (decodeRealModrm_carried db (contextBuffer ctx) _).trans
    ((selectTemplate_carried db s₂).trans (hf ▸ fetchOpcode_carried db (contextBuffer ctx) _))
  have hprefixed : (scanPrefixes (contextBuffer ctx) df (setMode ctx.machineMode df
      (initialise ctx.features (startState stale insn)))).diagram.prefixed.XInLongMode := hscan
  have hall : (decodeRealModrm db (contextBuffer ctx)
      (selectTemplate db s₂)).diagram.prefixed.XInLongMode := by
    change Diagram.XInLongMode (Carried.diagram (Internal.carried _))
    rw [hcarried]
    exact hprefixed
  exact hall

/-! ## The cells -/

/-- The base and the index `decode_arg_mem` reads behind a SIB byte. -/
def Internal.sibBase (s : Internal) : Nat :=
  if s.hasBase then s.diagram.registerAt baseS (s.diagram.registerPlace .sibBase)
  else Register.none

def Internal.sibIndex (s : Internal) (symbol : Symbol) : Nat :=
  if s.hasIndex then s.diagram.registerAt (getNodeIndex symbol) (s.diagram.registerPlace .sibIndex)
  else Register.none

theorem decodeArgMem_sib (db : Db) (buf : Buffer) {s : Internal} (i : Nat) {node : DbMem}
    (hnode : node.hasEncodedin = true) (hsib : s.diagram.hasSib = true) :
    (decodeArgMem db buf s i node).2.cellAt i Cell.memBase = s.sibBase % 65536 ∧
      (decodeArgMem db buf s i node).2.cellAt i Cell.memRegoff =
        s.sibIndex node.symbol % 65536 := by
  unfold decodeArgMem decodeModrmMem Internal.cellAt
  simp only [hnode, if_true, Internal.modifyArgument, Insn.setArgument_same, hsib]
  simp (disch := decide) only [Argument.get, Argument.put, Store.read_write_apart,
    Store.read_write_self]
  exact ⟨rfl, rfl⟩

/-- A memory node writes the cells of its memory operand. -/
theorem decodeNode_memory {node : DbNode} {m : DbMem} (h : node.memory = some m) (db : Db)
    (buf : Buffer) (s : Internal) (i : Nat) :
    ∃ t : Internal, t.outline = s.outline ∧ ∀ c,
      (decodeNode db buf s i node).2.cellAt i c = (decodeArgMem db buf t i m).2.cellAt i c := by
  refine ⟨s.modifyArgument i fun a =>
    { a with type := .none, attributes := { isRepresentable := true }, printer := {} },
    rfl, fun c => ?_⟩
  cases node <;> simp only [DbNode.memory, Option.some.injEq, reduceCtorEq] at h
  case mem => rw [← h]; rfl
  case agen => rw [← h]; exact cellAt_modifyArgument _ i fun a => rfl
  case mib => rw [← h]; exact cellAt_modifyArgument _ i fun a => rfl

theorem memory_takesSlot {node : DbNode} {m : DbMem} (h : node.memory = some m) :
    node.takesSlot = true := by
  cases node <;> first | rfl | cases h

/-- The cell of an accepted instruction that a memory node leaves. -/
theorem decodeInsn_cellAt {ctx : Context} {stale t : Internal} {insn : Insn} {node : DbNode}
    {rest : List DbNode} {j : Nat} {c : Cell} (h : accepted db ctx stale insn = some s)
    (hvisit : Visits db (contextBuffer ctx)
      (db.arguments (db.templates (decodeRealModrm db (contextBuffer ctx) s).ptemplate).arguments) 0
      (beginTemplate db (decodeRealModrm db (contextBuffer ctx) s)) node rest j t)
    (hslot : node.takesSlot = true) (hd : ∀ node ∈ rest, ∀ d ∈ node.decorates, c.Apart d) :
    ((decodeInsn db ctx stale insn).2.arguments j).get c =
      (decodeNode db (contextBuffer ctx) t j node).2.cellAt j c := by
  rw [decodeInsn_of_accepted h, ← hvisit.cellAt hslot hd]
  unfold decodeSelected decodeTemplate
  dsimp only [beginTemplate]
  generalize decodeNodes db (contextBuffer ctx) _ 0 _ = r
  obtain ⟨ok, u⟩ := r
  cases ok <;> rfl

/-! ## The registers -/

section Registers

variable {d : Diagram} {symbol : Symbol}

theorem registerAt_gpra (node : DbReg) (hasz : d.asz ≤ 2) (hnode : node.symbol = .gpra)
    {idx : Nat} (hidx : idx < 8) (b : Bool) (extension2 : Nat) :
    d.registerAt node { idx := idx, extension := 8 * b.toNat, extension2 := extension2 } =
      (gprClass d.asz).first + (idx + 8 * (d.longMode && b).toNat) := by
  unfold Diagram.registerAt resolveSymbol
  rw [hnode]
  dsimp only [Symbol.fromAxa, Symbol.fromAxv]
  rw [symbolRegister_vosz2gpr _ _ _ _ _ hasz]
  cases d.longMode with
  | false => simp
  | true => rw [if_pos rfl, or_eight hidx, Bool.true_and]

theorem gprClass_first_cases {sz : Nat} (hsz : sz ≤ 2) :
    (gprClass sz).first = 21 ∨ (gprClass sz).first = 37 ∨ (gprClass sz).first = 53 := by
  obtain rfl | rfl | rfl : sz = 0 ∨ sz = 1 ∨ sz = 2 := by omega
  all_goals decide

theorem getNodeIndex_of_none (h : symbol.vsibClass = none) : (getNodeIndex symbol).symbol = .gpra := by
  cases symbol <;> first | rfl | cases h

/-- The three vector classes differ in their first register only. -/
theorem getNodeIndex_of_some {c : RegisterClass} (h : symbol.vsibClass = some c) (asz osz : Nat) :
    (getNodeIndex symbol).symbol.registerClass asz osz = some c ∧
      (c.high = true ∧ c.extended = true ∧ c.count = 32) ∧ 0 < c.first ∧ c.first < 160 := by
  cases symbol <;> cases h <;> exact ⟨rfl, ⟨rfl, rfl, rfl⟩, by decide, by decide⟩

/-- The vector index of the architecture is a register. -/
theorem vsibIndex_bounds {c : RegisterClass} (h : symbol.vsibClass = some c)
    (hfilled : d.Filled .sibIndex) :
    0 < c.register (d.registerNumber 0 .sibIndex true true) ∧
      c.register (d.registerNumber 0 .sibIndex true true) < 65536 := by
  obtain ⟨-, ⟨-, -, hcount⟩, hpos, hlt⟩ := getNodeIndex_of_some h 0 0
  have hnumber := registerNumber_high_lt 0 hfilled
  rw [RegisterClass.register, if_pos (by omega)]
  omega

/-- A vector index is read where there is one. -/
theorem registerAt_vsib {c : RegisterClass} (h : symbol.vsibClass = some c)
    (hfilled : d.Filled .sibIndex) :
    d.registerAt (getNodeIndex symbol) (d.registerPlace .sibIndex) =
      c.register (d.registerNumber 0 .sibIndex true true) := by
  obtain ⟨hclass, ⟨hhigh, hext, -⟩, -, -⟩ := getNodeIndex_of_some h d.asz d.osz
  have hplace : d.Filled (getNodeIndex symbol).encodedin := hfilled
  have hreads := (readsClass_iff 0 hplace hclass).mpr (by
    rw [Diagram.ReadsClass, if_pos hhigh]
    have hne : (getNodeIndex symbol).encodedin ≠ .rm := Encodedin.noConfusion
    exact ⟨fun _ => hfilled.narrow (by decide) (by decide), fun _ hrm => absurd hrm hne⟩)
  rw [hhigh, hext] at hreads
  exact hreads

end Registers

section Operand

variable {symbol : Symbol}

/-- There is a base, unless mod is 0 and the base is 5. -/
theorem sibBase_eq_none (hr : s.diagram.Ranged) (hf : s.diagram.Fields) (hflags : s.SibFlags)
    (hsib : s.diagram.hasSib = true) :
    s.sibBase % 65536 = Register.none ↔ s.diagram.mod = 0 ∧ s.diagram.base = 5 := by
  have hnone : Register.none = 0 := rfl
  have hbit := Bool.toNat_le (s.diagram.longMode && s.diagram.b)
  have hfirst := gprClass_first_cases hr.asz_le
  have hbase := (hf.sib hsib).1
  have hread := registerAt_gpra baseS hr.asz_le rfl hbase s.diagram.b 0
  unfold Internal.sibBase
  rw [hflags.base]
  by_cases h : s.diagram.mod = 0 ∧ s.diagram.base = 5
  · rw [if_neg (by simp [h]), hnone]
    exact iff_of_true rfl h
  · have hhas : (!(s.diagram.base = 5 && s.diagram.mod = 0 : Bool)) = true := by
      simp only [Bool.not_eq_true', Bool.and_eq_false_iff, decide_eq_false_iff_not]
      tauto
    rw [if_pos hhas]
    refine iff_of_false ?_ h
    change s.diagram.registerAt baseS _ % 65536 ≠ _
    rw [show s.diagram.registerPlace .sibBase = ⟨s.diagram.base, 8 * s.diagram.b.toNat, 0⟩ from rfl,
      hread]
    omega

/-- The flag is off exactly without a vector prefix, with index 4 and no extension. -/
theorem hasIndex_eq_false (hflags : s.SibFlags) :
    s.hasIndex = false ↔
      s.diagram.enc = encodingNone ∧ s.diagram.index = 4 ∧ s.diagram.x = false := by
  rw [hflags.index]
  simp only [Bool.or_eq_false_iff, decide_eq_false_iff_not, not_not, Bool.not_eq_false',
    Bool.and_eq_true, Bool.not_eq_true', decide_eq_true_eq]
  tauto

/-- The index of an operand that is no vector operand is right exactly where the flag is. -/
theorem plainIndex_iff (hr : s.diagram.Ranged) (hf : s.diagram.Fields)
    (hx : s.diagram.XInLongMode) (hflags : s.SibFlags) (hsib : s.diagram.hasSib = true)
    (hplain : symbol.vsibClass = none) :
    ((s.sibIndex symbol % 65536 = Register.none ↔ s.diagram.index = 4 ∧ s.diagram.x = false) ∧
        s.sibIndex symbol % 65536 ∉ [Register.sp, Register.esp, Register.rsp]) ↔
      (s.diagram.index = 4 → s.diagram.x = false → s.diagram.enc = encodingNone) := by
  have hfirst := gprClass_first_cases hr.asz_le
  have hindex := (hf.sib hsib).2
  have hread := registerAt_gpra (getNodeIndex symbol) hr.asz_le (getNodeIndex_of_none hplain) hindex
    s.diagram.x (16 * s.diagram.vp.toNat)
  have hext : (s.diagram.longMode && s.diagram.x) = s.diagram.x := by
    cases hlong : s.diagram.longMode with
    | true => rfl
    | false => rw [hx hlong]; rfl
  rw [hext] at hread
  have hstack : [Register.sp, Register.esp, Register.rsp] = [25, 41, 57] := rfl
  have hnone : Register.none = 0 := rfl
  rw [hstack, hnone]
  unfold Internal.sibIndex
  cases hhas : s.hasIndex with
  | false =>
      have hflag := (hasIndex_eq_false hflags).mp hhas
      rw [if_neg (by decide), hnone]
      exact iff_of_true ⟨iff_of_true rfl hflag.2, by decide⟩ fun _ _ => hflag.1
  | true =>
      have hflag : ¬(s.diagram.enc = encodingNone ∧ s.diagram.index = 4 ∧ s.diagram.x = false) := by
        rw [← hasIndex_eq_false hflags, hhas]
        decide
      rw [if_pos rfl, show s.diagram.registerPlace .sibIndex =
        ⟨s.diagram.index, 8 * s.diagram.x.toNat, 16 * s.diagram.vp.toNat⟩ from rfl, hread]
      simp only [List.mem_cons, List.not_mem_nil, or_false]
      cases hxv : s.diagram.x with
      | false =>
          rw [hxv] at hflag
          simp only [Bool.toNat_false, and_true, true_imp_iff] at hflag ⊢
          omega
      | true =>
          simp only [Bool.toNat_true, and_false, reduceCtorEq, false_imp_iff, implies_true,
            iff_true, iff_false]
          omega

/-- And that of a vector operand where it is on. -/
theorem vectorIndex_iff (hfilled : s.diagram.Filled .sibIndex) (hflags : s.SibFlags)
    {c : RegisterClass} (hc : symbol.vsibClass = some c) :
    s.sibIndex symbol % 65536 = c.register (s.diagram.registerNumber 0 .sibIndex true true) ↔
      (s.diagram.index = 4 → s.diagram.x = false → s.diagram.enc ≠ encodingNone) := by
  obtain ⟨hpos, hlt⟩ := vsibIndex_bounds hc hfilled
  unfold Internal.sibIndex
  cases hhas : s.hasIndex with
  | false =>
      obtain ⟨henc, hindex, hx⟩ := (hasIndex_eq_false hflags).mp hhas
      refine iff_of_false ?_ fun h => h hindex hx henc
      exact Nat.ne_of_lt hpos
  | true =>
      rw [if_pos rfl, registerAt_vsib hc hfilled, Nat.mod_eq_of_lt hlt]
      refine iff_of_true rfl fun hindex hx henc => ?_
      rw [(hasIndex_eq_false hflags).mpr ⟨henc, hindex, hx⟩] at hhas
      cases hhas

/-- The registers follow the architecture exactly where the flag of the SIB byte fits the operand. -/
theorem followsSib_iff (hr : s.diagram.Ranged) (hf : s.diagram.Fields)
    (hx : s.diagram.XInLongMode) (hflags : s.SibFlags) (hsib : s.diagram.hasSib = true) :
    s.diagram.FollowsSib symbol (s.sibBase % 65536) (s.sibIndex symbol % 65536) ↔
      s.diagram.KindOfEncoding symbol := by
  have hbase := sibBase_eq_none hr hf hflags hsib
  have hfilled : s.diagram.Filled .sibIndex := hr.filled hf hsib
  unfold Diagram.KindOfEncoding
  cases hc : symbol.vsibClass with
  | none =>
      simp only [iff_true]
      rw [← plainIndex_iff hr hf hx hflags hsib hc]
      constructor
      · exact fun h => ⟨h.noIndex hc, h.noStack hc⟩
      · intro h
        refine ⟨hbase, fun _ => h.1, fun _ => h.2, fun c hsome => ?_⟩
        cases hc.symm.trans hsome
  | some c =>
      simp only [reduceCtorEq, iff_false]
      rw [← vectorIndex_iff hfilled hflags hc]
      constructor
      · exact fun h => h.vector c hc
      · intro h
        have hsome : symbol.vsibClass ≠ none := by
          rw [hc]
          exact Option.some_ne_none c
        refine ⟨hbase, fun hno => absurd hno hsome, fun hno => absurd hno hsome, fun c' hc' => ?_⟩
        rw [← Option.some.inj (hc.symm.trans hc')]
        exact h

end Operand

/-! ## Every accepted instruction -/

/-- The base and the index of a memory operand with a SIB byte, as `amed_x86_decode_insn` leaves
them, follow the architecture exactly where the encoding fits the kind of the operand. -/
theorem sibOperand_iff {ctx : Context} {stale t : Internal} {insn : Insn} {node : DbNode}
    {m : DbMem} {rest : List DbNode} {j : Nat} (h : accepted db ctx stale insn = some s)
    (hfeat : FeatureBits ctx.features) (hsib : ReadsSib db (contextBuffer ctx) s)
    (hvisit : Visits db (contextBuffer ctx)
      (db.arguments (db.templates (decodeRealModrm db (contextBuffer ctx) s).ptemplate).arguments) 0
      (beginTemplate db (decodeRealModrm db (contextBuffer ctx) s)) node rest j t)
    (hnode : node.memory = some m) (hm : m.hasEncodedin = true) :
    (decodeRealModrm db (contextBuffer ctx) s).diagram.FollowsSib m.symbol
        (((decodeInsn db ctx stale insn).2.arguments j).get Cell.memBase)
        (((decodeInsn db ctx stale insn).2.arguments j).get Cell.memRegoff) ↔
      (decodeRealModrm db (contextBuffer ctx) s).diagram.KindOfEncoding m.symbol := by
  obtain ⟨hr, hf⟩ := decodeRealModrm_ranged h hfeat
  have hflags := decodeRealModrm_sibFlags h hfeat hsib
  have hx := decodeRealModrm_x h
  have hapart : ∀ c, (c = Cell.memBase ∨ c = Cell.memRegoff) →
      ∀ node ∈ rest, ∀ d ∈ node.decorates, c.Apart d := by
    rintro c hc node -
    cases node <;> rcases hc with rfl | rfl <;> simp only [DbNode.decorates] <;> decide
  have hslot := memory_takesSlot hnode
  have houtline : t.outline = (beginTemplate db (decodeRealModrm db (contextBuffer ctx) s)).outline :=
    hvisit.outline
  rw [decodeInsn_cellAt h hvisit hslot (hapart _ (.inl rfl)),
    decodeInsn_cellAt h hvisit hslot (hapart _ (.inr rfl))]
  obtain ⟨u, hu, hcell⟩ := decodeNode_memory hnode db (contextBuffer ctx) t j
  have hsame : u.outline = (beginTemplate db (decodeRealModrm db (contextBuffer ctx) s)).outline :=
    hu.trans houtline
  have husib : u.diagram.hasSib = true :=
    (congrArg (fun v : Internal => v.diagram.hasSib) hsame).trans hsib.sib
  obtain ⟨hbase, hregoff⟩ := decodeArgMem_sib db (contextBuffer ctx) j hm husib
  have hubase : u.outline.sibBase =
      (beginTemplate db (decodeRealModrm db (contextBuffer ctx) s)).outline.sibBase :=
    congrArg Internal.sibBase hsame
  have huindex : u.outline.sibIndex m.symbol =
      (beginTemplate db (decodeRealModrm db (contextBuffer ctx) s)).outline.sibIndex m.symbol :=
    congrArg (Internal.sibIndex · m.symbol) hsame
  change u.sibBase = (decodeRealModrm db (contextBuffer ctx) s).sibBase at hubase
  change u.sibIndex m.symbol = (decodeRealModrm db (contextBuffer ctx) s).sibIndex m.symbol at huindex
  rw [hcell, hcell, hbase, hregoff, hubase, huindex]
  exact followsSib_iff hr hf hx hflags hsib.sib

/-! ## `MOVSS [RAX], XMM0` with a SIB byte -/

namespace Excerpt

/-- The entries of `MOVSS` and `VMOVSS` with a memory destination (0F 11). -/
def movssTables : Db where
  lookup index hashcode :=
    if index = 0x111 && !hashcode.getLsbD 0 && !hashcode.getLsbD 12 && hashcode.getLsbD 13 then
      match hashcode.getLsbD 17, hashcode.getLsbD 16 with
      | false, false => 1005 * 2 ^ 16 + 1691
      | false, true => 1562 * 2 ^ 16 + 2912
      | true, false => 1563 * 2 ^ 16 + 2913
      | true, true => 0
    else 0
  encodings
    | 1005 => { isa := 138, page := 397, categories := [71, 16, 0, 0], exceptions := [52, 0, 0, 0]
                extension := 55, hasModrm := true }
    | 1562 => { isa := 5, page := 397, categories := [0, 18, 0, 0], exceptions := [33, 0, 0, 0]
                extension := 4, hasModrm := true }
    | 1563 => { isa := 29, page := 397, categories := [0, 18, 0, 0], exceptions := [4, 0, 0, 0]
                extension := 7, hasModrm := true }
    | _ => {}
  templates
    | 1691 => { iform := 1068, bitdiffs := 3, arguments := 2145 }
    | 2912 => { iform := 1687, bitdiffs := 1, arguments := 2145 }
    | 2913 => { iform := 1687, bitdiffs := 1, arguments := 4080, tuple := .t1s }
    | _ => {}
  arguments
    | 2145 =>
        [.mem { datatype := .f32, symbol := .other, size := 32, write := true, hasEncodedin := true },
          .reg { symbol := .xmmreg, read := true, hasEncodedin := true, value := 6 }]
    | 4080 =>
        [.mem { datatype := .f32, symbol := .other, size := 32, write := true, hasEncodedin := true },
          .preg { symbol := .maskreg, read := true, zeroing := true, hasEncodedin := true, value := 8 },
          .vreg { symbol := .xmmreg, read := true, hasEncodedin := true, value := 6 }]
    | _ => []
  widths := widths
  reginfoSize register := if Register.xmm0 ≤ register && register < Register.ymm0 then 128 else 64
  iform2mnem
    | 1068 => 607
    | 1687 => 864
    | _ => 0
  bitdiffs := bitdiffs
  iflags _ := []

/-- The memory operand. -/
def movssMemory : DbMem :=
  { datatype := .f32, symbol := .other, size := 32, write := true, hasEncodedin := true }

/-- The node behind it. -/
def movssSource : DbNode := .reg { symbol := .xmmreg, read := true, hasEncodedin := true, value := 6 }

/-- The bytes F3 0F 11 04 20 in 64-bit mode. -/
def movssContext : Context := contextOf .mode64 [0xf3, 0x0f, 0x11, 0x04, 0x20] 5

/-- The bytes C5 FA 11 04 20 in 64-bit mode. -/
def vmovssContext : Context := contextOf .mode64 [0xc5, 0xfa, 0x11, 0x04, 0x20] 5

theorem movss_isSome : (accepted movssTables movssContext default default).isSome := by decide

theorem vmovss_isSome : (accepted movssTables vmovssContext default default).isSome := by decide

/-- The state in which the template of a context is selected, with its ModRM byte read. -/
def movssModrm (ctx : Context) (h : (accepted movssTables ctx default default).isSome) : Internal :=
  decodeRealModrm movssTables (contextBuffer ctx)
    ((accepted movssTables ctx default default).get h)

theorem movss_visits (ctx : Context) (h : (accepted movssTables ctx default default).isSome)
    (ht : (movssTables.templates (movssModrm ctx h).ptemplate).arguments = 2145) :
    Visits movssTables (contextBuffer ctx)
      (movssTables.arguments (movssTables.templates (movssModrm ctx h).ptemplate).arguments) 0
      (beginTemplate movssTables (movssModrm ctx h)) (.mem movssMemory) [movssSource] 0
      (beginTemplate movssTables (movssModrm ctx h)) := by
  rw [ht]
  exact Visits.here _ _ _ _

end Excerpt

open Excerpt in
/-- The legacy encoding has the base RAX and no index. -/
theorem sibOperand_movss :
    (movssModrm movssContext movss_isSome).diagram.FollowsSib .other
      (((decodeInsn movssTables movssContext default default).2.arguments 0).get Cell.memBase)
      (((decodeInsn movssTables movssContext default default).2.arguments 0).get Cell.memRegoff) :=
  (sibOperand_iff (Option.some_get movss_isSome).symm (by decide) ⟨by decide, by decide⟩
    (movss_visits movssContext movss_isSome (by decide)) rfl rfl).mpr
    (fun _ _ => iff_of_true (by decide) rfl)

open Excerpt in
/-- The VEX encoding has the index RSP. -/
theorem not_sibOperand_vmovss :
    ¬∀ (db : Db) (ctx : Context) (stale s t : Internal) (insn : Insn) (node : DbNode) (m : DbMem)
      (rest : List DbNode) (j : Nat), accepted db ctx stale insn = some s →
      FeatureBits ctx.features → ReadsSib db (contextBuffer ctx) s →
      Visits db (contextBuffer ctx)
        (db.arguments
          (db.templates (decodeRealModrm db (contextBuffer ctx) s).ptemplate).arguments) 0
        (beginTemplate db (decodeRealModrm db (contextBuffer ctx) s)) node rest j t →
      node.memory = some m → m.hasEncodedin = true →
      (decodeRealModrm db (contextBuffer ctx) s).diagram.FollowsSib m.symbol
        (((decodeInsn db ctx stale insn).2.arguments j).get Cell.memBase)
        (((decodeInsn db ctx stale insn).2.arguments j).get Cell.memRegoff) := by
  intro h
  have hfollows := h movssTables vmovssContext default _ _ default _ _ _ _
    (Option.some_get vmovss_isSome).symm (by decide) ⟨by decide, by decide⟩
    (movss_visits vmovssContext vmovss_isSome (by decide)) rfl rfl
  exact hfollows.noStack rfl (by decide)

end Amed.X86
