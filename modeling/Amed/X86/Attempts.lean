import Amed.X86.Addressing

/-!
# Prefix attempts, statement by statement

REX and the vector prefixes as the code writes them: each function peeks, tests, and
then commits one member of the state after the other. `Attempt` is what it leaves: its
answer and the state with every write made so far, so that a write placed before the
last test would show in the state of a refused attempt.

## Implementation notes

The functions of the same names over options state the prefixes as a whole.
`decodeRex_eq` and its companions derive each of them from the statements; the loop of
`decode_entry` over the statements is `scanPrefixes_eq`.
-/

namespace Amed.X86

open Bytes

/-- The answer of a prefix function and the state it leaves. -/
abbrev Attempt : Type := Bool × Internal

/-- The attempt an optional result stands for: a refusal leaves the old state. -/
def attemptOf (s : Internal) : Option Internal → Attempt
  | none => (false, s)
  | some s' => (true, s')

namespace Statements

/-- `set_pp_field`. -/
def setPpField (s : Internal) (value : Nat) : Attempt :=
  match value with
  | 1 => (true, { s with diagram.p66 := true })
  | 2 => (true, { s with diagram.f3 := true })
  | 3 => (true, { s with diagram.f2 := true })
  | _ => (true, s)

/-- The assignment of `ll` that ends `set_ll_field`. -/
def commitLl (s : Internal) (value : Nat) : Attempt := (true, { s with diagram.ll := value })

/-- `set_ll_field`, which fails for a length it does not know. -/
def setLlField (s : Internal) (value : Nat) : Attempt :=
  match value with
  | 0 => commitLl { s with diagram.vl := 0 } value
  | 1 => commitLl { s with diagram.vl := 1 } value
  | 2 | 3 => commitLl { s with diagram.vl := 2 } value
  | _ => (false, s)

/-- `set_mmmmm_field`, which fails for a reserved map. -/
def setMmmmmField (s : Internal) (value : Nat) : Attempt :=
  match value with
  | 1 => (true, { s with mapidx := mapIdx0F })
  | 2 => (true, { s with mapidx := mapIdx0F38 })
  | 3 => (true, { s with mapidx := mapIdx0F3A })
  | _ => (false, s)

/-- `set_w_field`. -/
def setWField (s : Internal) (value : Bool) : Attempt :=
  let s := { s with diagram.w := value }
  (true, if value then { s with diagram.osz := 2 } else s)

/-- `decode_rex`. -/
def decodeRex (buf : Buffer) (s : Internal) : Attempt :=
  if !s.diagram.longMode then (false, s)
  else
    match buf.peekByte s.pc with
    | none => (false, s)
    | some rex =>
        let s := s.advance 1
        let s := { s with diagram.b := bit rex 0 }
        let s := { s with diagram.fb := s.diagram.b }
        let s := { s with diagram.r := bit rex 2 }
        let s := { s with diagram.x := bit rex 1 }
        let s := { s with diagram.hasRex := true }
        let s := { s with vfpc := (s.vfpc + 1) % 256 }
        let s := (setWField s (bit rex 3)).2
        (true, s.addBytecode .rex [rex])

/-- `decode_vex2`. -/
def decodeVex2 (buf : Buffer) (s : Internal) : Attempt :=
  match buf.peekBytes s.pc 2 with
  | some [byte0, byte1] =>
      if !s.diagram.longMode && !bit byte1 7 then (false, s)
      else
        let s := (setMmmmmField s 1).2
        let s := (setPpField s (bits byte1 0 2)).2
        let s := (setLlField s (bits byte1 2 1)).2
        let s := { s with diagram.enc := encodingVex }
        let s := { s with diagram.hasRex := true }
        let s := { s with diagram.r := !bit byte1 7 }
        let s := { s with diagram.vvvv := 15 - bits byte1 3 4 }
        (true, (s.advance 2).addBytecode .vex2 [byte0, byte1])
  | _ => (false, s)

/-- `decode_vex3`. -/
def decodeVex3 (buf : Buffer) (s : Internal) : Attempt :=
  match buf.peekBytes s.pc 3 with
  | some [byte0, byte1, byte2] =>
      if !s.diagram.longMode && !(bit byte1 7 && bit byte1 6 && bit byte1 5) then (false, s)
      else
        match setMmmmmField s (bits byte1 0 5) with
        | (false, s) => (false, s)
        | (true, s) =>
            let s := (setWField s (bit byte2 7)).2
            let s := (setPpField s (bits byte2 0 2)).2
            let s := (setLlField s (bits byte2 2 1)).2
            let s := { s with diagram.enc := encodingVex }
            let s := { s with diagram.hasRex := true }
            let s := { s with diagram.r := !bit byte1 7 }
            let s := { s with diagram.x := !bit byte1 6 }
            let s := { s with diagram.b := !bit byte1 5 }
            let s := { s with diagram.w := bit byte2 7 }
            let s := { s with diagram.vvvv := 15 - bits byte2 3 4 }
            (true, (s.advance 3).addBytecode .vex3 [byte0, byte1, byte2])
  | _ => (false, s)

/-- The switch of `decode_xop` on the map. -/
def setXopMap (s : Internal) (value : Nat) : Attempt :=
  match value with
  | 8 => (true, { s with mapidx := mapIdxXop8 })
  | 9 => (true, { s with mapidx := mapIdxXop9 })
  | 10 => (true, { s with mapidx := mapIdxXopA })
  | _ => (false, s)

/-- `decode_xop`. -/
def decodeXop (buf : Buffer) (s : Internal) : Attempt :=
  match buf.peekBytes s.pc 3 with
  | some [byte0, byte1, byte2] =>
      if !s.diagram.longMode && !(bit byte1 7 && bit byte1 6 && bit byte1 5) then (false, s)
      else
        match setXopMap s (bits byte1 0 5) with
        | (false, s) => (false, s)
        | (true, s) =>
            let s := { s with diagram.enc := encodingXop }
            let s := { s with diagram.hasRex := true }
            let s := { s with diagram.r := !bit byte1 7 }
            let s := { s with diagram.x := !bit byte1 6 }
            let s := { s with diagram.b := !bit byte1 5 }
            let s := { s with diagram.vvvv := 15 - bits byte2 3 4 }
            let s := (setWField s (bit byte2 7)).2
            let s := (setLlField s (bits byte2 2 1)).2
            (true, (s.advance 3).addBytecode .vex3 [byte0, byte1, byte2])
  | _ => (false, s)

/-- The switch of the MVEX branch on the map. -/
def setMvexMap (s : Internal) (value : Nat) : Attempt :=
  match value with
  | 0 | 1 => (true, { s with mapidx := mapIdx0F })
  | 2 => (true, { s with mapidx := mapIdx0F38 })
  | 3 => (true, { s with mapidx := mapIdx0F3A })
  | _ => (false, s)

/-- The MVEX branch of `decode_mevex`, with the test of the mode that it repeats. -/
def decodeMvex (s : Internal) (byte0 byte1 byte2 byte3 : UInt8) : Attempt :=
  if !s.diagram.longMode && !(bit byte1 7 && bit byte1 6 && bit byte1 5) then (false, s)
  else
    match setMvexMap s (bits byte1 0 4) with
    | (false, s) => (false, s)
    | (true, s) =>
        let s := (setPpField s (bits byte2 0 2)).2
        let s := (setWField s (bit byte2 7)).2
        let s := { s with diagram.hasRex := true }
        let s := { s with diagram.r := !bit byte1 7 }
        let s := { s with diagram.x := !bit byte1 6 }
        let s := { s with diagram.b := !bit byte1 5 }
        let s := { s with diagram.rp := !bit byte1 4 }
        let s := { s with diagram.vp := !bit byte3 3 }
        let s := { s with diagram.e := bit byte3 7 }
        let s := { s with diagram.aaa := bits byte3 0 3 }
        let s := { s with diagram.vvvv := 15 - bits byte2 3 4 }
        let s := { s with diagram.z := false }
        let s := { s with diagram.sss := bits byte3 4 3 }
        (true, s.addBytecode .mvex [byte0, byte1, byte2, byte3])

/-- The EVEX branch of `decode_mevex`. -/
def decodeEvex (s : Internal) (byte0 byte1 byte2 byte3 : UInt8) : Attempt :=
  if !s.diagram.longMode && !(bit byte1 7 && bit byte1 6 && bit byte1 5) then (false, s)
  else
    match setMmmmmField s (bits byte1 0 2) with
    | (false, s) => (false, s)
    | (true, s) =>
        let s := (setPpField s (bits byte2 0 2)).2
        let s := (setWField s (bit byte2 7)).2
        let s := (setLlField s (bits byte3 5 2)).2
        let s := { s with diagram.hasRex := true }
        let s := { s with diagram.r := !bit byte1 7 }
        let s := { s with diagram.x := !bit byte1 6 }
        let s := { s with diagram.b := !bit byte1 5 }
        let s := { s with diagram.rp := !bit byte1 4 }
        let s := { s with diagram.vp := !bit byte3 3 }
        let s := { s with diagram.fb := bit byte3 4 }
        let s := { s with diagram.bp := s.diagram.fb }
        let s := { s with diagram.aaa := bits byte3 0 3 }
        let s := { s with diagram.vvvv := 15 - bits byte2 3 4 }
        let s := { s with diagram.z := bit byte3 7 }
        (true, s.addBytecode .evex [byte0, byte1, byte2, byte3])

/-- The tail of `decode_mevex` behind its switch on the encoding. -/
def finishMevex (encoding : Nat) : Attempt → Attempt
  | (false, s) => (false, s)
  | (true, s) => (true, { s.advance 4 with diagram.enc := encoding })

/-- `decode_mevex`. -/
def decodeMevex (buf : Buffer) (s : Internal) : Attempt :=
  match buf.peekBytes s.pc 4 with
  | some [byte0, byte1, byte2, byte3] =>
      if bits byte1 2 2 ≠ 0 ∨ !bit byte2 2 then
        if s.diagram.longMode then
          finishMevex encodingMvex (decodeMvex s byte0 byte1 byte2 byte3)
        else (false, s)
      else finishMevex encodingEvex (decodeEvex s byte0 byte1 byte2 byte3)
  | _ => (false, s)

/-- One pass of the prefix loop over the statements: `again` where a case leads back to the
start of the loop, and otherwise the state the opcode fetch starts from. -/
inductive Pass
  | again (s : Internal)
  | leave (s : Internal)

/-- The cases of the prefix switch; a vector prefix's answer is not looked at. -/
def pass (buf : Buffer) (df : DefaultSizes) (s : Internal) : Pass :=
  match buf.peekByte s.pc with
  | none => .leave s
  | some op =>
      if isRexByte op then
        match decodeRex buf s with
        | (true, s) => .again s
        | (false, s) => .leave s
      else
        match op.toNat with
        | 0x8f => .leave (decodeXop buf s).2
        | 0x62 => .leave (decodeMevex buf s).2
        | 0xc4 => .leave (decodeVex3 buf s).2
        | 0xc5 => .leave (decodeVex2 buf s).2
        | 0x0f => .leave (decodeMap buf s)
        | _ =>
            match decodePrefix buf df s op with
            | some s => .again s
            | none => .leave s

/-- The prefix loop, at most `n` passes back to its start. -/
def scan (buf : Buffer) (df : DefaultSizes) : Nat → Internal → Internal
  | 0, s => s
  | n + 1, s =>
      match pass buf df s with
      | .again s => scan buf df n s
      | .leave s => s

end Statements

/-! ## The statements against the whole prefixes -/

theorem setLlField_snd (s : Internal) {value : Nat} (h : value < 4) :
    (Statements.setLlField s value).2 = { s with diagram := s.diagram.setLlField value } := by
  have hcases : value = 0 ∨ value = 1 ∨ value = 2 ∨ value = 3 := by omega
  rcases hcases with rfl | rfl | rfl | rfl <;> rfl

theorem setPpField_snd (s : Internal) {value : Nat} (h : value < 4) :
    (Statements.setPpField s value).2 = { s with diagram := s.diagram.setPpField value } := by
  have hcases : value = 0 ∨ value = 1 ∨ value = 2 ∨ value = 3 := by omega
  rcases hcases with rfl | rfl | rfl | rfl <;> rfl

theorem setWField_snd (s : Internal) (value : Bool) :
    (Statements.setWField s value).2 = { s with diagram := s.diagram.setWField value } := by
  cases value <;> rfl

/-- The setters of the map answer false exactly where the map is reserved. -/
theorem setMmmmmField_eq (s : Internal) (value : Nat) :
    Statements.setMmmmmField s value =
      attemptOf s ((mmmmmField value).map fun map => { s with mapidx := map }) := by
  unfold Statements.setMmmmmField mmmmmField
  split <;> simp_all [attemptOf]

theorem setXopMap_eq (s : Internal) (value : Nat) :
    Statements.setXopMap s value =
      attemptOf s ((xopMap value).map fun map => { s with mapidx := map }) := by
  unfold Statements.setXopMap xopMap
  split <;> simp_all [attemptOf]

theorem setMvexMap_eq (s : Internal) (value : Nat) :
    Statements.setMvexMap s value =
      attemptOf s ((mvexMap value).map fun map => { s with mapidx := map }) := by
  unfold Statements.setMvexMap mvexMap
  split <;> simp_all [attemptOf]

theorem peekBytes_length {buf : Buffer} {pc n : Nat} {bs : List UInt8}
    (h : buf.peekBytes pc n = some bs) : bs.length = n := by
  obtain ⟨-, rfl⟩ := peekBytes_eq_some.mp h
  exact slice_length _ _ _

theorem bit_lt_four (b : UInt8) (pos : Nat) : bits b pos 1 < 4 :=
  (bits_lt b pos 1).trans (by decide)

theorem takeBytes_of_peek {buf : Buffer} {s : Internal} (type : BytecodeType) {n : Nat}
    {o : Option (List UInt8)} (h : buf.peekBytes s.pc n = o) :
    s.takeBytes buf type n = o.map fun bs => (bs, (s.advance n).addBytecode type bs) := by
  unfold Internal.takeBytes
  rw [h]
  cases o <;> rfl

theorem attemptOf_of_false {s : Internal} {o : Option Internal}
    (h : (attemptOf s o).1 = false) : (attemptOf s o).2 = s := by
  cases o with
  | none => rfl
  | some s' => cases h

theorem attemptOf_snd (s : Internal) (o : Option Internal) : (attemptOf s o).2 = o.getD s := by
  cases o <;> rfl

theorem decodeEscape_of_rex (buf : Buffer) (s : Internal) {op : UInt8} (h : isRexByte op) :
    decodeEscape buf s op = s := by
  unfold decodeEscape
  split <;> rename_i hop <;> simp [isRexByte, hop] at h
  rfl

section Whole

variable (buf : Buffer) (s : Internal)

theorem decodeRex_statements :
    Statements.decodeRex buf s = attemptOf s (decodeRex buf s) := by
  unfold Statements.decodeRex decodeRex
  cases hlong : s.diagram.longMode with
  | false => rfl
  | true =>
      cases hop : buf.peekByte s.pc with
      | none =>
          have htake : s.takeBytes buf .rex 1 = none :=
            takeBytes_eq_none.mpr (peekByte_eq_none.mp hop)
          rw [htake]
          rfl
      | some rex =>
          obtain ⟨hin, hrex⟩ := peekByte_eq_some.mp hop
          have htake : s.takeBytes buf .rex 1 =
              some ([rex], (s.advance 1).addBytecode .rex [rex]) :=
            takeBytes_eq_some.mpr ⟨hin, by simp [hrex], rfl⟩
          rw [htake]
          simp only [setWField_snd]
          rfl

theorem decodeVex2_statements :
    Statements.decodeVex2 buf s = attemptOf s (decodeVex2 buf s) := by
  unfold Statements.decodeVex2 decodeVex2
  cases hpeek : buf.peekBytes s.pc 2 with
  | none =>
      rw [takeBytes_of_peek .vex2 hpeek]
      rfl
  | some bs =>
      obtain ⟨byte0, byte1, rfl⟩ := List.length_eq_two.mp (peekBytes_length hpeek)
      rw [takeBytes_of_peek .vex2 hpeek]
      simp only [setLlField_snd _ (bit_lt_four byte1 2), setPpField_snd _ (bits_lt byte1 0 2)]
      change _ = attemptOf s (if !s.diagram.longMode && !bit byte1 7 then none else _)
      split
      · rfl
      · rfl

theorem decodeVex3_statements :
    Statements.decodeVex3 buf s = attemptOf s (decodeVex3 buf s) := by
  unfold Statements.decodeVex3 decodeVex3
  cases hpeek : buf.peekBytes s.pc 3 with
  | none =>
      rw [takeBytes_of_peek .vex3 hpeek]
      rfl
  | some bs =>
      obtain ⟨byte0, byte1, byte2, rfl⟩ := List.length_eq_three.mp (peekBytes_length hpeek)
      rw [takeBytes_of_peek .vex3 hpeek]
      simp only [setMmmmmField_eq, setLlField_snd _ (bit_lt_four byte2 2),
        setPpField_snd _ (bits_lt byte2 0 2), setWField_snd]
      change _ = attemptOf s
        (if !s.diagram.longMode && !(bit byte1 7 && bit byte1 6 && bit byte1 5) then none else _)
      split
      · rfl
      · cases mmmmmField (bits byte1 0 5) with
        | none => rfl
        | some map => rfl

theorem decodeXop_statements :
    Statements.decodeXop buf s = attemptOf s (decodeXop buf s) := by
  unfold Statements.decodeXop decodeXop
  cases hpeek : buf.peekBytes s.pc 3 with
  | none =>
      rw [takeBytes_of_peek .vex3 hpeek]
      rfl
  | some bs =>
      obtain ⟨byte0, byte1, byte2, rfl⟩ := List.length_eq_three.mp (peekBytes_length hpeek)
      rw [takeBytes_of_peek .vex3 hpeek]
      simp only [setXopMap_eq, setLlField_snd _ (bit_lt_four byte2 2), setWField_snd]
      change _ = attemptOf s
        (if !s.diagram.longMode && !(bit byte1 7 && bit byte1 6 && bit byte1 5) then none else _)
      split
      · rfl
      · cases xopMap (bits byte1 0 5) with
        | none => rfl
        | some map => rfl

/-- The MVEX branch is only entered in long mode, where the test it repeats passes. -/
theorem decodeMvex_statements (byte0 byte1 byte2 byte3 : UInt8) (hlong : s.diagram.longMode) :
    Statements.finishMevex encodingMvex (Statements.decodeMvex s byte0 byte1 byte2 byte3) =
      attemptOf s (decodeMvex ((s.advance 4).addBytecode .mvex [byte0, byte1, byte2, byte3])
        byte1 byte2 byte3) := by
  unfold Statements.decodeMvex decodeMvex
  simp only [hlong, Bool.not_true, Bool.false_and, Bool.false_eq_true, if_false, setMvexMap_eq,
    setPpField_snd _ (bits_lt byte2 0 2), setWField_snd]
  cases mvexMap (bits byte1 0 4) with
  | none => rfl
  | some map => rfl

theorem decodeEvex_statements (byte0 byte1 byte2 byte3 : UInt8) :
    Statements.finishMevex encodingEvex (Statements.decodeEvex s byte0 byte1 byte2 byte3) =
      attemptOf s (decodeEvex ((s.advance 4).addBytecode .evex [byte0, byte1, byte2, byte3])
        byte1 byte2 byte3) := by
  unfold Statements.decodeEvex decodeEvex
  simp only [setMmmmmField_eq, setLlField_snd _ (bits_lt byte3 5 2),
    setPpField_snd _ (bits_lt byte2 0 2), setWField_snd]
  change _ = attemptOf s
    (if !s.diagram.longMode && !(bit byte1 7 && bit byte1 6 && bit byte1 5) then none else _)
  split
  · rfl
  · cases mmmmmField (bits byte1 0 2) with
    | none => rfl
    | some map => rfl

theorem decodeMevex_statements :
    Statements.decodeMevex buf s = attemptOf s (decodeMevex buf s) := by
  unfold Statements.decodeMevex decodeMevex
  cases hpeek : buf.peekBytes s.pc 4 with
  | none => rfl
  | some bs =>
      have hlen := peekBytes_length hpeek
      obtain ⟨byte0, byte1, byte2, byte3, rfl⟩ : ∃ a b c d, bs = [a, b, c, d] := by
        rcases bs with - | ⟨a, - | ⟨b, - | ⟨c, - | ⟨d, - | ⟨e, bs⟩⟩⟩⟩⟩ <;> simp at hlen
        exact ⟨a, b, c, d, rfl⟩
      simp only [decodeEvex_statements]
      split
      · cases hlong : s.diagram.longMode with
        | false => rfl
        | true => exact decodeMvex_statements s byte0 byte1 byte2 byte3 hlong
      · rfl

/-- A pass over the statements, with the prefixes as a whole. -/
theorem pass_of_some (df : DefaultSizes) {op : UInt8} (hop : buf.peekByte s.pc = some op) :
    Statements.pass buf df s =
      match decodePrefix buf df s op with
      | some s' => .again s'
      | none => .leave (decodeEscape buf s op) := by
  unfold Statements.pass
  simp only [hop, decodeRex_statements, decodeVex2_statements, decodeVex3_statements,
    decodeXop_statements, decodeMevex_statements, attemptOf_snd]
  cases hrex : isRexByte op with
  | true =>
      have hescape : decodeEscape buf s op = s := decodeEscape_of_rex buf s hrex
      have hpre : decodePrefix buf df s op = decodeRex buf s := by
        simp only [decodePrefix, hrex, if_true]
      rw [hpre, hescape, if_pos rfl]
      cases decodeRex buf s <;> rfl
  | false =>
      simp only [Bool.false_eq_true, if_false]
      unfold decodeEscape
      split <;> rename_i h <;> simp [decodePrefix, hrex, h]

theorem pass_of_none (df : DefaultSizes) (hop : buf.peekByte s.pc = none) :
    Statements.pass buf df s = .leave s := by
  unfold Statements.pass
  rw [hop]

/-- The counter behind a prefix byte, which lies inside the buffer. -/
theorem decodePrefix_pc {df : DefaultSizes} {s s' : Internal} {op : UInt8}
    (hop : buf.peekByte s.pc = some op) (h : decodePrefix buf df s op = some s') :
    s'.pc = s.pc + 1 := by
  obtain ⟨hin, -⟩ := peekByte_eq_some.mp hop
  rw [decodePrefix_eq df hop] at h
  split at h
  · obtain rfl := Option.some.inj h
    rw [applyPrefix_pc, Nat.mod_eq_of_lt (Nat.lt_of_le_of_lt hin buf.nb_lt)]
  · cases h

/-- Where the loop over the statements is left, the prefix run has ended. -/
theorem scan_run (df : DefaultSizes) {n : Nat} {s : Internal} (hn : buf.nb < s.pc + n) :
    Statements.scan buf df n s =
      leaveLoop buf (Loop.run (prefixStep buf df) n s) := by
  induction n generalizing s with
  | zero =>
      have hnone : buf.peekByte s.pc = none := peekByte_eq_none.mpr (by omega)
      rw [Loop.run_zero, leaveLoop, hnone]
      rfl
  | succ n ih =>
      cases hop : buf.peekByte s.pc with
      | none =>
          rw [Loop.run_of_none (prefixStep_none hop), leaveLoop, hop, Statements.scan,
            pass_of_none buf s df hop]
      | some op =>
          have hstep : prefixStep buf df s = decodePrefix buf df s op := by
            rw [prefixStep, hop, Option.bind_some]
          rw [Statements.scan, pass_of_some buf s df hop]
          cases hpre : decodePrefix buf df s op with
          | none =>
              rw [hpre] at hstep
              rw [Loop.run_of_none hstep, leaveLoop, hop]
          | some s' =>
              rw [hpre] at hstep
              have hpc := decodePrefix_pc buf hop hpre
              rw [Loop.run_of_some hstep]
              exact ih (by omega)

/-- The loop over the statements is the prefix loop with the escape that ends it. -/
theorem scan_eq (df : DefaultSizes) (s : Internal) :
    Statements.scan buf df (buf.nb + 1) s = scanPrefixes buf df s :=
  scan_run buf df (by omega)

end Whole

/-! ## A failed attempt -/

/-- The attempts of the prefix switch, by the byte that starts them. -/
def Statements.attemptAt (op : UInt8) : Option (Buffer → Internal → Attempt) :=
  if isRexByte op then some Statements.decodeRex
  else
    match op.toNat with
    | 0x8f => some Statements.decodeXop
    | 0x62 => some Statements.decodeMevex
    | 0xc4 => some Statements.decodeVex3
    | 0xc5 => some Statements.decodeVex2
    | _ => none

/-- A state from which `op` is read as an opcode of the one-byte map, under the encoding and the
count of illegal prefixes of `s`. -/
structure ReadAsOpcode (s s' : Internal) (op : UInt8) : Prop where
  opcode : s'.diagram.opcode = op
  map : s'.mapidx = 0
  enc : s'.diagram.enc = s.diagram.enc
  vfpc : s'.vfpc = s.vfpc

theorem fetchOpcode_reads (db : Db) {buf : Buffer} {s : Internal} {op : UInt8}
    (hop : buf.peekByte s.pc = some op) (hmap : s.mapidx = 0) :
    ∃ s', fetchOpcode db buf s = (true, s') ∧ ReadAsOpcode s s' op := by
  have hnow : s.mapidx ≠ mapIdx0F0F := by
    rw [hmap]
    decide
  unfold fetchOpcode
  rw [if_neg hnow, hop]
  exact ⟨_, rfl, ⟨rfl, hmap, rfl, rfl⟩⟩

/-- The five attempts of the prefix loop. -/
def Statements.attempts : List (Buffer → Internal → Attempt) :=
  [Statements.decodeRex, Statements.decodeVex2, Statements.decodeVex3, Statements.decodeXop,
    Statements.decodeMevex]

theorem attempt_of_false {buf : Buffer} {s : Internal} {attempt : Buffer → Internal → Attempt}
    (h : attempt ∈ Statements.attempts) (hfail : (attempt buf s).1 = false) :
    (attempt buf s).2 = s := by
  simp only [Statements.attempts, List.mem_cons, List.not_mem_nil, or_false] at h
  rcases h with rfl | rfl | rfl | rfl | rfl
  · rw [decodeRex_statements] at hfail ⊢
    exact attemptOf_of_false hfail
  · rw [decodeVex2_statements] at hfail ⊢
    exact attemptOf_of_false hfail
  · rw [decodeVex3_statements] at hfail ⊢
    exact attemptOf_of_false hfail
  · rw [decodeXop_statements] at hfail ⊢
    exact attemptOf_of_false hfail
  · rw [decodeMevex_statements] at hfail ⊢
    exact attemptOf_of_false hfail

theorem attemptAt_mem {op : UInt8} {attempt : Buffer → Internal → Attempt}
    (h : Statements.attemptAt op = some attempt) : attempt ∈ Statements.attempts := by
  unfold Statements.attemptAt at h
  unfold Statements.attempts
  split at h
  · cases h
    simp
  · split at h <;> cases h <;> simp

/-- The loop is left with what a failed attempt leaves. -/
theorem pass_of_failed {buf : Buffer} {s : Internal} {op : UInt8}
    {attempt : Buffer → Internal → Attempt} (df : DefaultSizes)
    (hop : buf.peekByte s.pc = some op) (hat : Statements.attemptAt op = some attempt)
    (hfail : (attempt buf s).1 = false) :
    Statements.pass buf df s = .leave (attempt buf s).2 := by
  unfold Statements.attemptAt at hat
  unfold Statements.pass
  rw [hop]
  dsimp only
  split at hat
  · rename_i hrex
    obtain rfl := Option.some.inj hat
    rw [if_pos hrex]
    generalize Statements.decodeRex buf s = r at hfail
    obtain ⟨ok, s'⟩ := r
    obtain rfl : ok = false := hfail
    rfl
  · rename_i hrex
    rw [if_neg hrex]
    split at hat <;> rename_i hval <;> cases hat <;> rw [hval] <;> rfl

/-- A failed attempt leaves the whole state as it was, and the byte it was made at is read as an
opcode from that state. -/
theorem failedAttempt_inert (buf : Buffer) (s : Internal) :
    (∀ attempt ∈ Statements.attempts, (attempt buf s).1 = false → (attempt buf s).2 = s) ∧
      ∀ df op attempt, buf.peekByte s.pc = some op → Statements.attemptAt op = some attempt →
        (attempt buf s).1 = false →
          Statements.pass buf df s = .leave s ∧
            ∀ db, s.mapidx = 0 →
              ∃ s', fetchOpcode db buf s = (true, s') ∧ ReadAsOpcode s s' op := by
  refine ⟨fun attempt hmem hfail => attempt_of_false hmem hfail, ?_⟩
  intro df op attempt hop hat hfail
  refine ⟨?_, fun db hmap => fetchOpcode_reads db hop hmap⟩
  rw [pass_of_failed df hop hat hfail, attempt_of_false (attemptAt_mem hat) hfail]

end Amed.X86
