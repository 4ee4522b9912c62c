import Amed.X86.Suffix

/-!
# 16-bit addresses

The 16-bit addressing forms of the architecture, and what the decoder makes of a ModRM byte
when the address size is 16.

## Implementation notes

`decode_modrm` and `decode_arg_mem` read the same fields for every address size: register 4
announces a SIB byte, and the only base is the register the rm field numbers. The switch on
the displacement has a case for two bytes that no caller asks for.
-/

namespace Amed.X86

open Bytes

/-- A form of the 16-bit addressing table: base, index and bytes of displacement. -/
structure AddressForm where
  base : Nat
  index : Nat
  dispWidth : Nat
  deriving DecidableEq, Repr

/-- The 16-bit addressing table, for `mod ≠ 3`. -/
def wordForm (mod rm : Nat) : AddressForm :=
  let bx := Register.ax + 3
  let si := Register.ax + 6
  let di := Register.ax + 7
  let dispWidth := if mod = 0 then (if rm = 6 then 2 else 0) else mod
  match rm with
  | 0 => ⟨bx, si, dispWidth⟩
  | 1 => ⟨bx, di, dispWidth⟩
  | 2 => ⟨Register.bp, si, dispWidth⟩
  | 3 => ⟨Register.bp, di, dispWidth⟩
  | 4 => ⟨si, Register.none, dispWidth⟩
  | 5 => ⟨di, Register.none, dispWidth⟩
  | 6 => ⟨if mod = 0 then Register.none else Register.bp, Register.none, dispWidth⟩
  | _ => ⟨bx, Register.none, dispWidth⟩

/-- What `decode_arg_mem` puts an address without SIB byte together from. -/
structure AddressParts where
  hasSib : Bool
  hasBase : Bool
  baseIp : Nat
  asz : Nat
  rm : Nat
  longMode : Bool
  b : Bool

def Internal.addressParts (s : Internal) : AddressParts :=
  ⟨s.diagram.hasSib, s.hasBase, s.baseIp, s.diagram.asz, s.diagram.rm, s.diagram.longMode,
    s.diagram.b⟩

/-- Decoding the arguments in front of the memory argument leaves its parts alone. -/
theorem decodeNodes_addressParts (db : Db) (buf : Buffer) (nodes : List DbNode) (i : Nat)
    (s : Internal) : (decodeNodes db buf nodes i s).2.addressParts = s.addressParts := by
  have houtline := congrArg Internal.addressParts (decodeNodes_outline db buf nodes i s)
  exact houtline

/-- The base register of an address without SIB byte, for 16-bit addresses. -/
def AddressParts.base (p : AddressParts) : Nat :=
  if p.hasBase then
    if p.baseIp ≠ 0 then p.baseIp
    else Register.ax + (p.rm ||| if p.longMode then 8 * p.b.toNat else 0)
  else Register.none

/-- The base and index cells of the argument `decode_arg_mem` leaves behind. -/
theorem decodeArgMem_registers (db : Db) (buf : Buffer) {s : Internal} (i : Nat) {node : DbMem}
    (hnode : node.hasEncodedin = true) (hsib : s.diagram.hasSib = false)
    (hasz : s.diagram.asz = 0) :
    ((decodeArgMem db buf s i node).2.insn.arguments i).get Cell.memBase =
        s.addressParts.base % 65536 ∧
      ((decodeArgMem db buf s i node).2.insn.arguments i).get Cell.memRegoff = 0 := by
  have hbase : s.diagram.registerAt baseR (s.diagram.registerPlace .rm) = Register.ax +
      (s.diagram.rm ||| if s.diagram.longMode then 8 * s.diagram.b.toNat else 0) := by
    simp [Diagram.registerAt, Diagram.registerPlace, baseR, resolveSymbol, Symbol.fromAxa,
      Symbol.fromAxv, hasz, vosz2gpr, symbolRegister]
  unfold decodeArgMem decodeModrmMem
  simp only [hnode, if_true, Internal.modifyArgument, Insn.setArgument_same, hsib, hbase,
    Bool.false_eq_true, if_false]
  simp (disch := decide) only [Argument.get, Argument.put, Store.read_write_apart,
    Store.read_write_self]
  exact ⟨rfl, rfl⟩

theorem readDisp_addressParts (db : Db) (buf : Buffer) (s : Internal) (n : Nat) :
    (readDisp db buf s n).2.addressParts = s.addressParts := by
  unfold readDisp
  split
  · rfl
  · cases hdisp : decodeDisp db buf s n with
    | none => rfl
    | some s' =>
        unfold decodeDisp at hdisp
        cases htake : s.takeBytes buf .disp n with
        | none => simp [htake] at hdisp
        | some q =>
            obtain ⟨bytes, t⟩ := q
            obtain ⟨-, -, rfl⟩ := takeBytes_eq_some.mp htake
            simp only [htake] at hdisp
            unfold setDisp at hdisp
            split at hdisp
            · cases hdisp
              rfl
            · cases hdisp
              rfl
            · cases hdisp
              rfl
            · cases hdisp

/-- A SIB byte that is read is recorded in the diagram. -/
theorem decodeSib_addressParts (db : Db) (buf : Buffer) (s : Internal)
    (h : (decodeSib db buf s).2.diagram.hasSib = false) :
    (decodeSib db buf s).2.addressParts = s.addressParts := by
  unfold decodeSib at h ⊢
  split at h
  · rename_i sib s' htake
    have hparts := fun t =>
      readDisp_addressParts db buf t (sibDispLength s'.diagram.mod (bits sib 0 3))
    have hsib := congrArg AddressParts.hasSib (hparts { s' with
      diagram := { s'.diagram with
        index := bits sib 3 3, base := bits sib 0 3, scale := 2 ^ bits sib 6 2, hasSib := true }
      hasIndex := s'.diagram.enc ≠ encodingNone || !(!s'.diagram.x && bits sib 3 3 = 4)
      hasBase := s'.hasBase && !(bits sib 0 3 = 5 && s'.diagram.mod = 0) })
    exact absurd (h.symm.trans hsib) Bool.false_ne_true
  · rfl

/-- Without a SIB byte the parts of the address are those of the ModRM byte. -/
theorem decodeModrm_addressParts (db : Db) (buf : Buffer) (s : Internal)
    (h : (decodeModrm db buf s).2.diagram.hasSib = false) :
    (decodeModrm db buf s).2.addressParts = (beginModrm s).addressParts := by
  have hfirst : ∀ p : Prop, [Decidable p] →
      (if p then decodeSib db buf (beginModrm s) else (true, beginModrm s)).2.diagram.hasSib = false →
      (if p then decodeSib db buf (beginModrm s) else (true, beginModrm s)).2.addressParts =
        (beginModrm s).addressParts := by
    intro p _ hsib
    by_cases hp : p
    · rw [if_pos hp] at hsib ⊢
      exact decodeSib_addressParts db buf _ hsib
    · rw [if_neg hp]
  unfold decodeModrm at h ⊢
  dsimp only at h ⊢
  have hnow := hfirst (s.diagram.mod ≠ 3 ∧ s.diagram.rm = 4)
  generalize (if s.diagram.mod ≠ 3 ∧ s.diagram.rm = 4 then decodeSib db buf (beginModrm s)
    else (true, beginModrm s)) = q at h hnow ⊢
  obtain ⟨ok, u⟩ := q
  cases ok with
  | false => exact hnow h
  | true =>
      have hdisp := readDisp_addressParts db buf u (modrmDispSize s.diagram.mod s.diagram.rm)
      dsimp only at h ⊢
      generalize readDisp db buf u (modrmDispSize s.diagram.mod s.diagram.rm) = r at h hdisp ⊢
      obtain ⟨ok', v⟩ := r
      have hsib : v.diagram.hasSib = false := by
        cases ok' <;> exact h
      have hparts := hdisp.trans (hnow ((congrArg AddressParts.hasSib hdisp).symm.trans hsib))
      cases ok' <;> exact hparts

/-- The ModRM byte in `s`, and the memory argument decoded from what it leaves in `t`, follow
the 16-bit addressing table: no SIB byte, the displacement of the table's width, and the
table's registers. -/
structure FollowsWordTable (db : Db) (buf : Buffer) (s t : Internal) (i : Nat) (node : DbMem) :
    Prop where
  consumed : (decodeModrm db buf s).2.pc =
    s.pc + (1 + (wordForm s.diagram.mod s.diagram.rm).dispWidth)
  noSib : (decodeModrm db buf s).2.diagram.hasSib = false
  base : ((decodeArgMem db buf t i node).2.insn.arguments i).get Cell.memBase =
    (wordForm s.diagram.mod s.diagram.rm).base
  index : ((decodeArgMem db buf t i node).2.insn.arguments i).get Cell.memRegoff =
    (wordForm s.diagram.mod s.diagram.rm).index

/-- The base register for a 16-bit ModRM byte: the one the rm field numbers. -/
theorem beginModrm_base {s : Internal} (hasz : s.diagram.asz = 0) :
    (beginModrm s).addressParts.base =
      if s.diagram.mod = 0 ∧ s.diagram.rm = 5 then Register.none
      else
        Register.ax + (s.diagram.rm ||| if s.diagram.longMode then 8 * s.diagram.b.toNat else 0) := by
  by_cases hrip : s.diagram.mod = 0 ∧ s.diagram.rm = 5
  · rw [if_pos hrip]
    simp [AddressParts.base, Internal.addressParts, beginModrm, hrip, hasz]
  · rw [if_neg hrip]
    have hbase : (beginModrm s).addressParts.hasBase = true := by
      simp [Internal.addressParts, beginModrm]
      tauto
    have hip : (beginModrm s).addressParts.baseIp = 0 := by
      simp [Internal.addressParts, beginModrm, Register.none]
      tauto
    unfold AddressParts.base
    rw [if_pos hbase, if_neg (not_not.mpr hip)]
    rfl

/-- The register that the rm field numbers is never the base of a form without index. -/
theorem wordForm_base_ne : ∀ mod < 4, mod ≠ 3 → ∀ rm < 8, (wordForm mod rm).index = 0 →
    ∀ extension ∈ [0, 8],
      (if mod = 0 ∧ rm = 5 then Register.none else Register.ax + (rm ||| extension)) % 65536 ≠
        (wordForm mod rm).base := by
  decide

/-- No ModRM byte of a memory operand follows the 16-bit addressing table, whatever arguments
are decoded between the byte and the operand. -/
theorem not_followsWordTable (db : Db) (buf : Buffer) {s t : Internal} {m : UInt8}
    (hasz : s.diagram.asz = 0) (hmod : bits m 6 2 ≠ 3)
    (hparts : t.addressParts = (decodeModrm db buf (s.setModrmField m)).2.addressParts)
    (nodes : List DbNode) (i j : Nat) {node : DbMem} (hnode : node.hasEncodedin = true) :
    ¬FollowsWordTable db buf (s.setModrmField m) (decodeNodes db buf nodes j t).2 i node := by
  rintro ⟨-, hsib, hbase, hindex⟩
  have ht := (decodeNodes_addressParts db buf nodes j t).trans hparts
  have hbegin := ht.trans (decodeModrm_addressParts db buf (s.setModrmField m) hsib)
  obtain ⟨hb, hi⟩ := decodeArgMem_registers db buf i hnode
    ((congrArg AddressParts.hasSib ht).trans hsib)
    ((congrArg AddressParts.asz hbegin).trans hasz)
  rw [hbegin] at hb
  have hext : (if s.diagram.longMode then 8 * s.diagram.b.toNat else 0) ∈ [0, 8] := by
    cases s.diagram.longMode <;> cases s.diagram.b <;> decide
  have hne := wordForm_base_ne _ (bits_lt m 6 2) hmod _ (bits_lt m 0 3) (hindex.symm.trans hi) _ hext
  rw [beginModrm_base (s := s.setModrmField m) hasz] at hb
  exact hne (hb.symm.trans hbase)

open Excerpt in
/-- ModRM 07, the form `[BX]`. -/
theorem not_followsWordTable_bx :
    ¬FollowsWordTable tables (bufferOf [0x07] (by decide)) ((default : Internal).setModrmField 0x07)
      (decodeNodes tables (bufferOf [0x07] (by decide)) [] 0
        (decodeModrm tables (bufferOf [0x07] (by decide))
          ((default : Internal).setModrmField 0x07)).2).2 0 { hasEncodedin := true } :=
  not_followsWordTable tables (bufferOf [0x07] (by decide)) rfl (by decide) rfl [] 0 0 rfl

open Excerpt in
/-- `ADD [BX], EAX` with a 67 prefix in 32-bit mode is decoded with the base `DI`. -/
theorem not_followsWordTable_add :
    ¬∀ (db : Db) (ctx : Context) (stale : Internal) (insn : Insn) (s : Internal) (node : DbMem),
      accepted db ctx stale insn = some s → s.diagram.asz = 0 → s.diagram.mod ≠ 3 →
        node.hasEncodedin = true →
          FollowsWordTable db (contextBuffer ctx) s (decodeRealModrm db (contextBuffer ctx) s) 0
            node := by
  have hacc : (accepted tables (contextOf .mode32 [0x67, 0x01, 0x07] 3) default default).isSome := by
    decide
  have hbase : ((decodeArgMem tables (contextBuffer (contextOf .mode32 [0x67, 0x01, 0x07] 3))
      (decodeRealModrm tables (contextBuffer (contextOf .mode32 [0x67, 0x01, 0x07] 3))
        ((accepted tables (contextOf .mode32 [0x67, 0x01, 0x07] 3) default default).get hacc))
      0 { hasEncodedin := true }).2.insn.arguments 0).get Cell.memBase = Register.ax + 7 := by
    decide +revert
  have hasz : ((accepted tables (contextOf .mode32 [0x67, 0x01, 0x07] 3) default default).get
      hacc).diagram.asz = 0 := by decide +revert
  have hform : ((accepted tables (contextOf .mode32 [0x67, 0x01, 0x07] 3) default default).get
      hacc).diagram.mod = 0 ∧ ((accepted tables (contextOf .mode32 [0x67, 0x01, 0x07] 3) default
      default).get hacc).diagram.rm = 7 := by decide +revert
  intro h
  have htable := (h tables (contextOf .mode32 [0x67, 0x01, 0x07] 3) default default _
    { hasEncodedin := true } (Option.some_get hacc).symm hasz (by rw [hform.1]; decide) rfl).base
  rw [hform.1, hform.2, hbase] at htable
  exact absurd htable (by decide)

end Amed.X86
