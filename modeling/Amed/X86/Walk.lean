import Amed.X86.Addressing

/-!
# The walk over a template's nodes

An abstract account of `decode_nodes`: the position in the input, the fields read so
far, the slots written, and the flags that decide whether a node is refused. It knows
nothing of what an argument holds.

## Implementation notes

`Tracks` relates a state of the decoder to a walk; `decodeNodes_tracks` is the
refinement. The walk keeps the list of fields it has read, so what `decode_nodes`
consumes is read off the walk. The decorator nodes write to the slot of the memory or
vector operand, which has been written before, so the walk takes no note of it.
-/

namespace Amed.X86

open Bytes

/-- The part of the decoder's state that a walk over the nodes depends on. -/
structure View where
  pc : Nat
  hasIs4 : Bool
  vmem : Option Nat
  vreg : Option Nat
  overrun : Bool
  undefined : Bool
  asz : Nat
  osz : Nat
  sss : Nat
  deriving DecidableEq, Repr

def Internal.view (s : Internal) : View :=
  ⟨s.pc, s.diagram.hasIs4, s.vmem, s.vreg, s.insn.overrun, s.insn.attributes.isUndefined,
    s.diagram.asz, s.diagram.osz, s.diagram.sss⟩

/-- A walk: the view and the fields read so far. -/
structure Walk extends View where
  fields : List Bytecode
  deriving DecidableEq, Repr

/-- The bytes a walk reads from: a memory and, where there is one, the number of bytes
of it that may be read. -/
structure Window where
  mem : Nat → UInt8
  limit : Option Nat

/-- The first `n` bytes lie inside the window. -/
def Window.Holds (win : Window) (n : Nat) : Prop := ∀ limit ∈ win.limit, n ≤ limit

instance (win : Window) (n : Nat) : Decidable (win.Holds n) :=
  inferInstanceAs (Decidable (∀ limit ∈ win.limit, n ≤ limit))

/-- The window of a buffer. -/
def Buffer.window (buf : Buffer) : Window := ⟨buf.address, some buf.nb⟩

/-- The memory of a buffer without its end. -/
def Buffer.unbounded (buf : Buffer) : Window := ⟨buf.address, none⟩

@[simp] theorem Buffer.window_holds (buf : Buffer) (n : Nat) :
    buf.window.Holds n ↔ n ≤ buf.nb := by
  simp [Window.Holds, Buffer.window]

@[simp] theorem Buffer.unbounded_holds (buf : Buffer) (n : Nat) : buf.unbounded.Holds n := by
  simp [Window.Holds, Buffer.unbounded]

namespace Walk

/-- Read `n` bytes if they lie inside the buffer. -/
def read (win : Window) (w : Walk) (type : BytecodeType) (n : Nat) : Option Walk :=
  if win.Holds (w.pc + n) then
    some { w with
      pc := w.pc + n
      fields := w.fields ++ [⟨type, slice win.mem w.pc n⟩] }
  else none

/-- Write to a slot. -/
def touch (w : Walk) (i : Nat) : Walk :=
  { w with overrun := w.overrun || decide (maxArguments ≤ i) }

/-- Read the is4 byte unless it is known; a missing byte is not an error. -/
def is4 (win : Window) (w : Walk) : Walk :=
  if w.hasIs4 then w
  else
    match w.read win .imm 1 with
    | none => w
    | some w => { w with hasIs4 := true }

def register (win : Window) (w : Walk) (node : DbReg) : Walk :=
  if node.hasEncodedin && node.encodedin = .is4 then w.is4 win else w

def optionalRegister (win : Window) (w : Walk) : Option DbReg → Walk
  | none => w
  | some node => w.register win node

def memory (win : Window) (w : Walk) (i : Nat) (node : DbMem) : Walk :=
  let w :=
    if node.hasEncodedin then w
    else (w.optionalRegister win node.seg).optionalRegister win node.base
  { w with vmem := some i }

/-- The number of bytes of an encoded immediate. -/
def immBytes (db : Db) (osz : Nat) (node : DbAny) : Nat :=
  getRealSize db node.size osz % 65536 / 8 % 256

def imm (db : Db) (win : Window) (w : Walk) (node : DbAny) : Bool × Walk :=
  if !node.hasEncodedin then (true, w)
  else if node.encodedin = .is4 then (true, w.is4 win)
  else
    match w.read win .imm (immBytes db w.osz node) with
    | none => (false, w)
    | some w => (true, w)

def moffs (win : Window) (w : Walk) : Bool × Walk :=
  match moffsWidth w.asz with
  | none => (false, w)
  | some (_, n) =>
      match w.read win .disp n with
      | none => (false, w)
      | some w => (true, w)

def ptr (win : Window) (w : Walk) : Bool × Walk :=
  match w.read win .absSeg 2 with
  | none => (false, w)
  | some w =>
      match ptrWidth w.osz with
      | none => (false, w)
      | some (_, n) =>
          match w.read win .disp n with
          | none => (false, w)
          | some w => (true, w)

/-- Whether the rest of `decode_node_swz_mem` goes through for a row that is not reserved. -/
def rowDecodes (row : DbSwizzleTv) : Bool :=
  getDatatypeSize row.mdt ≠ 0 && (!row.broadcasting || getDatatypeSize row.vdt ≠ 0)

def swz (w : Walk) (node : DbSwz) : Bool × Walk :=
  if node.onRegister || w.vmem.isNone then (true, w)
  else
    let row := node.row w.sss
    if row.reserved then (true, { w with undefined := true }) else (rowDecodes row, w)

/-- One node. -/
def node (db : Db) (win : Window) (w : Walk) (i : Nat) (node : DbNode) : Bool × Walk :=
  let w := w.touch i
  match node with
  | .reg node | .preg node => (true, w.register win node)
  | .vreg node => (true, { w.register win node with vreg := some i })
  | .mem node | .agen node | .mib node => (true, w.memory win i node)
  | .imm node | .rel node | .shift node | .rotate node | .cc node => w.imm db win node
  | .moffs _ => w.moffs win
  | .ptr _ => w.ptr win
  | .sae | .evh | .rc _ | .other => (true, w)
  | .bcst => (w.vmem.isSome, w)
  | .sbcst _ => (true, w)
  | .swz node => w.swz node

end Walk

/-- A node that leaves an argument type behind uses up its slot. -/
def DbNode.takesSlot : DbNode → Bool
  | .bcst | .sbcst _ | .swz _ | .other => false
  | _ => true

/-- All nodes from slot `i` on. -/
def Walk.nodes (db : Db) (win : Window) : List DbNode → Nat → Walk → Bool × Walk
  | [], _, w => (true, w)
  | node :: nodes, i, w =>
      match w.node db win i node with
      | (false, w) => (false, w)
      | (true, w) => Walk.nodes db win nodes (if node.takesSlot then i + 1 else i) w

/-! ## The decoder tracks the walk -/

/-- The state has the walk's view, and from `c₀` on it has consumed the walk's fields.
The slots of the vector operands are among those written. -/
structure Tracks (buf : Buffer) (c₀ : Cursor) (s : Internal) (w : Walk) : Prop where
  fields : Consumes buf c₀ s.cursor w.fields
  types : ∀ f ∈ w.fields, f.type ≠ .map
  view : s.view = w.toView
  slots : ∀ j, w.vmem = some j ∨ w.vreg = some j → w.touch j = w

namespace Tracks

variable {buf : Buffer} {c₀ : Cursor} {s s' : Internal} {w w' : Walk}

/-- A change outside the cursor, matched by the walk. -/
theorem change (h : Tracks buf c₀ s w) (hc : s'.cursor = s.cursor) (hf : w'.fields = w.fields)
    (hv : s'.view = w'.toView) (hs : ∀ j, w'.vmem = some j ∨ w'.vreg = some j → w'.touch j = w') :
    Tracks buf c₀ s' w' where
  fields := by
    rw [hc, hf]
    exact h.fields
  types := by
    rw [hf]
    exact h.types
  view := hv
  slots := hs

/-- A change the walk does not see. -/
theorem unseen (h : Tracks buf c₀ s w) (hc : s'.cursor = s.cursor) (hv : s'.view = s.view) :
    Tracks buf c₀ s' w :=
  h.change hc rfl (hv.trans h.view) h.slots

/-- A change that writes to a slot written before and is not seen otherwise. -/
theorem written (h : Tracks buf c₀ s w) {i : Nat} (hi : w.touch i = w)
    (hc : s'.cursor = s.cursor)
    (hv : s'.view = { s.view with overrun := s.view.overrun || decide (maxArguments ≤ i) }) :
    Tracks buf c₀ s' w := by
  refine h.change hc rfl ?_ h.slots
  rw [hv, h.view]
  exact congrArg Walk.toView hi

end Tracks

theorem Walk.touch_touch (w : Walk) (i : Nat) : (w.touch i).touch i = w.touch i := by
  simp [Walk.touch]

/-- A written slot stays written, whatever else the walk does. -/
theorem Walk.touch_mono {w w' : Walk} {i : Nat} (h : w.touch i = w)
    (ho : w'.overrun = w.overrun) : w'.touch i = w' := by
  have hw : (w.overrun || decide (maxArguments ≤ i)) = w.overrun := congrArg (·.overrun) h
  simp only [Walk.touch, ho, hw]
  rw [← ho]

/-- What a read changes. -/
theorem Walk.read_eq_some {win : Window} {w w' : Walk} {type : BytecodeType} {n : Nat}
    (h : w.read win type n = some w') :
    win.Holds (w.pc + n) ∧ w' = { w with
      pc := w.pc + n
      fields := w.fields ++ [⟨type, slice win.mem w.pc n⟩] } := by
  unfold Walk.read at h
  split at h
  · exact ⟨‹_›, (Option.some.inj h).symm⟩
  · exact absurd h (by simp)

theorem Walk.is4_keeps (win : Window) (w : Walk) :
    (w.is4 win).overrun = w.overrun ∧ (w.is4 win).vmem = w.vmem ∧ (w.is4 win).vreg = w.vreg := by
  unfold Walk.is4
  split
  · exact ⟨rfl, rfl, rfl⟩
  · split
    · exact ⟨rfl, rfl, rfl⟩
    · rename_i hread
      obtain ⟨-, rfl⟩ := Walk.read_eq_some hread
      exact ⟨rfl, rfl, rfl⟩

theorem Walk.register_keeps (win : Window) (w : Walk) (node : DbReg) :
    (w.register win node).overrun = w.overrun ∧ (w.register win node).vmem = w.vmem ∧
      (w.register win node).vreg = w.vreg := by
  unfold Walk.register
  split
  · exact Walk.is4_keeps win w
  · exact ⟨rfl, rfl, rfl⟩

theorem Walk.optionalRegister_keeps (win : Window) (w : Walk) (node : Option DbReg) :
    (w.optionalRegister win node).overrun = w.overrun ∧
      (w.optionalRegister win node).vmem = w.vmem ∧
      (w.optionalRegister win node).vreg = w.vreg := by
  cases node with
  | none => exact ⟨rfl, rfl, rfl⟩
  | some node => exact Walk.register_keeps win w node

/-- An outcome of the decoder follows one of the walk. -/
def Follows (buf : Buffer) (c₀ : Cursor) (r : Bool × Internal) (q : Bool × Walk) : Prop :=
  r.1 = q.1 ∧ Tracks buf c₀ r.2 q.2

section Nodes

variable (db : Db) {buf : Buffer} {c₀ : Cursor} {s : Internal} {w : Walk}

/-- The decoder and the walk read alike. -/
theorem Tracks.take (h : Tracks buf c₀ s w) (type : BytecodeType) (htype : type ≠ .map)
    (n : Nat) :
    (s.takeBytes buf type n = none ∧ w.read buf.window type n = none) ∨
      ∃ bs s' w', s.takeBytes buf type n = some (bs, s') ∧ w.read buf.window type n = some w' ∧
        Tracks buf c₀ s' w' ∧ w'.overrun = w.overrun ∧ w'.osz = w.osz ∧
        s'.diagram = s.diagram := by
  have hpc : s.pc = w.pc := congrArg View.pc h.view
  by_cases hin : w.pc + n ≤ buf.nb
  · right
    have htake : s.takeBytes buf type n = some (slice buf.address s.pc n,
        (s.advance n).addBytecode type (slice buf.address s.pc n)) :=
      takeBytes_eq_some.mpr ⟨by omega, rfl, rfl⟩
    refine ⟨_, _, _, htake, if_pos ((buf.window_holds _).mpr hin), ⟨?_, ?_, ?_, ?_⟩, rfl, rfl, rfl⟩
    · rw [← hpc]
      exact h.fields.trans (takeBytes_consumes htake htype)
    · intro f hf
      rcases List.mem_append.mp hf with hf | hf
      · exact h.types f hf
      · rw [List.mem_singleton.mp hf]
        exact htype
    · have hadv : (s.advance n).pc = s.pc + n := advance_pc (by omega : s.pc + n ≤ buf.nb)
      change { s.view with pc := (s.advance n).pc } = { w.toView with pc := w.pc + n }
      rw [hadv, hpc, h.view]
    · intro j hj
      exact Walk.touch_mono (h.slots j hj) rfl
  · exact .inl ⟨takeBytes_eq_none.mpr (by omega), if_neg fun h => hin ((buf.window_holds _).mp h)⟩

theorem Tracks.is4 (h : Tracks buf c₀ s w) :
    Tracks buf c₀ (getIs4Value buf s).2 (w.is4 buf.window) := by
  have his4 : s.diagram.hasIs4 = w.hasIs4 := congrArg View.hasIs4 h.view
  unfold getIs4Value Walk.is4
  by_cases hknown : w.hasIs4
  · simpa [his4, hknown] using h
  · rcases h.take .imm (by decide) 1 with ⟨htake, hread⟩ |
      ⟨bs, s', w', htake, hread, htracks, -⟩
    · simpa [his4, hknown, htake, hread] using h
    · obtain ⟨b, rfl⟩ := List.length_eq_one_iff.mp (takeBytes_length htake)
      simp only [his4, hknown, htake, hread, Bool.false_eq_true, if_false]
      refine htracks.change rfl rfl ?_ fun j hj => Walk.touch_mono (htracks.slots j hj) rfl
      change { s'.view with hasIs4 := true } = { w'.toView with hasIs4 := true }
      rw [htracks.view]

theorem Tracks.register (h : Tracks buf c₀ s w) (node : DbReg) :
    Tracks buf c₀ (decodeNodeRegisterValue buf s node).2 (w.register buf.window node) := by
  unfold decodeNodeRegisterValue Walk.register
  by_cases henc : node.hasEncodedin
  · cases hin : node.encodedin with
    | is4 => simpa [henc, hin] using h.is4
    | _ => simpa [henc, hin] using h
  · simpa [henc] using h

theorem Tracks.optionalRegister (h : Tracks buf c₀ s w) (node : Option DbReg) :
    Tracks buf c₀ (decodeOptionalRegister buf s node).2 (w.optionalRegister buf.window node) := by
  cases node with
  | none => exact h
  | some node => exact h.register node

theorem decodeArgReg_tracks (h : Tracks buf c₀ s w) {i : Nat} (hi : w.touch i = w)
    (node : DbReg) :
    Follows buf c₀ (decodeArgReg db buf s i node) (true, w.register buf.window node) := by
  let s₁ := s.modifyArgument i fun a => { a with type := .register }
  have h₁ : Tracks buf c₀ s₁ w := h.written hi rfl rfl
  have hi' : (w.register buf.window node).touch i = w.register buf.window node :=
    Walk.touch_mono hi (Walk.register_keeps buf.window w node).1
  exact ⟨rfl, (h₁.register node).written hi' rfl rfl⟩

theorem decodeArgPreg_tracks (h : Tracks buf c₀ s w) {i : Nat} (hi : w.touch i = w)
    (node : DbReg) :
    Follows buf c₀ (decodeArgPreg db buf s i node) (true, w.register buf.window node) := by
  obtain ⟨-, hreg⟩ := decodeArgReg_tracks db h hi node
  have hi' : (w.register buf.window node).touch i = w.register buf.window node :=
    Walk.touch_mono hi (Walk.register_keeps buf.window w node).1
  unfold decodeArgPreg
  dsimp only
  split
  · exact ⟨rfl, hreg.written hi' rfl rfl⟩
  · exact ⟨rfl, hreg.written hi' rfl rfl⟩

theorem decodeArgVreg_tracks (h : Tracks buf c₀ s w) {i : Nat} (hi : w.touch i = w)
    (node : DbReg) :
    Follows buf c₀ (decodeArgVreg db buf s i node)
      (true, { w.register buf.window node with vreg := some i }) := by
  obtain ⟨-, hreg⟩ := decodeArgReg_tracks db h hi node
  have hi' : (w.register buf.window node).touch i = w.register buf.window node :=
    Walk.touch_mono hi (Walk.register_keeps buf.window w node).1
  let s₁ := (decodeArgVreg db buf s i node).2
  have h₁ : Tracks buf c₀ { s₁ with vreg := (decodeArgReg db buf s i node).2.vreg }
      (w.register buf.window node) := hreg.written hi' rfl rfl
  refine ⟨rfl, h₁.change rfl rfl ?_ ?_⟩
  · exact congrArg (fun v : View => { v with vreg := some i }) h₁.view
  · rintro j (hj | hj)
    · exact Walk.touch_mono (h₁.slots j (.inl hj)) rfl
    · obtain rfl := Option.some.inj hj
      exact Walk.touch_mono hi' rfl

theorem decodeModrmMem_tracks (h : Tracks buf c₀ s w) {i : Nat} (hi : w.touch i = w)
    (node : DbMem) : Tracks buf c₀ (decodeModrmMem s i node) w :=
  h.written hi rfl rfl

theorem decodeImplicitMem_tracks (h : Tracks buf c₀ s w) {i : Nat} (hi : w.touch i = w)
    (node : DbMem) :
    Tracks buf c₀ (decodeImplicitMem buf s i node)
      ((w.optionalRegister buf.window node.seg).optionalRegister buf.window node.base) := by
  have hseg := h.optionalRegister node.seg
  have hi₁ : (w.optionalRegister buf.window node.seg).touch i =
      w.optionalRegister buf.window node.seg :=
    Walk.touch_mono hi (Walk.optionalRegister_keeps buf.window w node.seg).1
  let s₁ := (decodeOptionalRegister buf s node.seg).2.modifyArgument i fun a =>
    a.put Cell.memSegment (decodeOptionalRegister buf s node.seg).1
  have h₁ : Tracks buf c₀ s₁ _ := hseg.written hi₁ rfl rfl
  have hbase := h₁.optionalRegister node.base
  exact hbase.written
    (Walk.touch_mono hi₁ (Walk.optionalRegister_keeps buf.window _ node.base).1) rfl rfl

theorem Walk.memory_keeps (win : Window) (w : Walk) (i : Nat) (node : DbMem) :
    (w.memory win i node).overrun = w.overrun ∧ (w.memory win i node).vreg = w.vreg := by
  unfold Walk.memory
  obtain ⟨ho, -, hv⟩ := Walk.optionalRegister_keeps win w node.seg
  obtain ⟨ho', -, hv'⟩ :=
    Walk.optionalRegister_keeps win (w.optionalRegister win node.seg) node.base
  dsimp only
  split
  · exact ⟨rfl, rfl⟩
  · exact ⟨ho'.trans ho, hv'.trans hv⟩

theorem decodeArgMem_tracks (h : Tracks buf c₀ s w) {i : Nat} (hi : w.touch i = w)
    (node : DbMem) :
    Follows buf c₀ (decodeArgMem db buf s i node) (true, w.memory buf.window i node) := by
  let s₁ := s.modifyArgument i fun a =>
    (((a.put Cell.memVdatatype Datatype.none.code).put Cell.memBroadcastingFrom 0).put
      Cell.memBroadcastingTo 0).put Cell.memAddressSize ([16, 32, 64].getD s.diagram.asz 0)
  have h₁ : Tracks buf c₀ s₁ w := h.written hi rfl rfl
  let s₂ := if node.hasEncodedin then decodeModrmMem s₁ i node
    else decodeImplicitMem buf s₁ i node
  let w₂ := if node.hasEncodedin then w
    else (w.optionalRegister buf.window node.seg).optionalRegister buf.window node.base
  have h₂ : Tracks buf c₀ s₂ w₂ ∧ w₂.touch i = w₂ := by
    by_cases henc : node.hasEncodedin
    · simp only [s₂, w₂, henc, if_true]
      exact ⟨decodeModrmMem_tracks h₁ hi node, hi⟩
    · simp only [s₂, w₂, henc, Bool.false_eq_true, if_false]
      refine ⟨decodeImplicitMem_tracks h₁ hi node, Walk.touch_mono hi ?_⟩
      rw [(Walk.optionalRegister_keeps buf.window _ node.base).1,
        (Walk.optionalRegister_keeps buf.window _ node.seg).1]
  obtain ⟨h₂, hi₂⟩ := h₂
  let s₃ := { (decodeArgMem db buf s i node).2 with vmem := s₂.vmem }
  have h₃ : Tracks buf c₀ s₃ w₂ := h₂.written hi₂ rfl rfl
  refine ⟨rfl, h₃.change rfl rfl ?_ ?_⟩
  · exact congrArg (fun v : View => { v with vmem := some i }) h₃.view
  · rintro j (hj | hj)
    · obtain rfl := Option.some.inj hj
      exact Walk.touch_mono hi₂ rfl
    · exact Walk.touch_mono (h₃.slots j (.inr hj)) rfl

theorem decodeArgAddress_tracks (h : Tracks buf c₀ s w) {i : Nat} (hi : w.touch i = w)
    (node : DbMem) :
    Follows buf c₀ (decodeArgAddress db buf s i node) (true, w.memory buf.window i node) := by
  obtain ⟨-, hmem⟩ := decodeArgMem_tracks db h hi node
  exact ⟨rfl, hmem.written (Walk.touch_mono hi (Walk.memory_keeps buf.window w i node).1) rfl rfl⟩

theorem decodeArgImm_tracks (h : Tracks buf c₀ s w) {i : Nat} (hi : w.touch i = w)
    (node : DbAny) :
    Follows buf c₀ (decodeArgImm db buf s i node) (w.imm db buf.window node) ∧
      (w.imm db buf.window node).2.overrun = w.overrun := by
  have hosz : s.diagram.osz = w.osz := congrArg View.osz h.view
  unfold decodeArgImm Walk.imm Walk.immBytes
  rw [hosz]
  let s₁ := s.modifyArgument i fun a =>
    { a.put Cell.imm 0 with
      size := getRealSize db node.size w.osz % 65536, type := .immediate
      datatype := getNormalizedDatatype node.datatype (getRealSize db node.size w.osz % 65536) }
  have h₁ : Tracks buf c₀ s₁ w := h.written hi rfl rfl
  by_cases henc : node.hasEncodedin
  · simp only [henc, Bool.not_true, Bool.false_eq_true, if_false]
    by_cases his4 : node.encodedin = .is4
    · rw [his4]
      have hkeep := (Walk.is4_keeps buf.window w).1
      exact ⟨⟨rfl, (h₁.is4).written (Walk.touch_mono hi hkeep) rfl rfl⟩, hkeep⟩
    · rw [if_neg his4]
      split
      · exact absurd ‹_› his4
      · rcases h₁.take .imm (by decide)
          (getRealSize db node.size w.osz % 65536 / 8 % 256) with ⟨htake, hread⟩ |
            ⟨bs, s', w', htake, hread, htracks, ho, -⟩
        · rw [htake, hread]
          exact ⟨⟨rfl, h₁⟩, rfl⟩
        · rw [htake, hread]
          exact ⟨⟨rfl, htracks.written (Walk.touch_mono hi ho) rfl rfl⟩, ho⟩
  · simp only [henc, Bool.not_false, if_true]
    exact ⟨⟨rfl, h₁.written hi rfl rfl⟩, trivial⟩

/-- A change after `decode_arg_imm` that only writes to the operand's slot. -/
theorem afterImm_tracks (h : Tracks buf c₀ s w) {i : Nat} (hi : w.touch i = w) (node : DbAny)
    (g : Internal → Internal)
    (hg : ∀ t : Internal, (g t).cursor = t.cursor ∧
      ((g t).view = t.view ∨
        (g t).view = { t.view with overrun := t.view.overrun || decide (maxArguments ≤ i) })) :
    Follows buf c₀
      (match decodeArgImm db buf s i node with
        | (false, s) => (false, s)
        | (true, s) => (true, g s))
      (w.imm db buf.window node) := by
  obtain ⟨⟨hok, himm⟩, ho⟩ := decodeArgImm_tracks db h hi node
  generalize decodeArgImm db buf s i node = r at hok himm
  obtain ⟨ok, t⟩ := r
  cases ok with
  | false => exact ⟨hok, himm⟩
  | true =>
      obtain ⟨hc, hv | hv⟩ := hg t
      · exact ⟨hok, himm.unseen hc hv⟩
      · exact ⟨hok, himm.written (Walk.touch_mono hi ho) hc hv⟩

theorem checkCount_view (s : Internal) (i low : Nat) :
    (s.checkCount i low).cursor = s.cursor ∧ (s.checkCount i low).view = s.view := by
  unfold Internal.checkCount
  split
  · exact ⟨rfl, rfl⟩
  · split <;> exact ⟨rfl, rfl⟩

theorem decodeArgImmShift_tracks (h : Tracks buf c₀ s w) {i : Nat} (hi : w.touch i = w)
    (node : DbAny) :
    Follows buf c₀ (decodeArgImmShift db buf s i node) (w.imm db buf.window node) := by
  refine afterImm_tracks db h hi node _ fun t => ?_
  split
  · exact ⟨(checkCount_view t i 0).1, .inl (checkCount_view t i 0).2⟩
  · exact ⟨(checkCount_view t i 1).1, .inl (checkCount_view t i 1).2⟩
  · exact ⟨rfl, .inl rfl⟩

theorem decodeArgImmRotate_tracks (h : Tracks buf c₀ s w) {i : Nat} (hi : w.touch i = w)
    (node : DbAny) :
    Follows buf c₀ (decodeArgImmRotate db buf s i node) (w.imm db buf.window node) :=
  afterImm_tracks db h hi node _ fun t => ⟨(checkCount_view t i 0).1, .inl (checkCount_view t i 0).2⟩

theorem decodeArgCc_tracks (h : Tracks buf c₀ s w) {i : Nat} (hi : w.touch i = w)
    (node : DbAny) :
    Follows buf c₀ (decodeArgCc db buf s i node) (w.imm db buf.window node) :=
  afterImm_tracks db h hi node _ fun _ => ⟨rfl, .inr rfl⟩

theorem decodeArgRel_tracks (h : Tracks buf c₀ s w) {i : Nat} (hi : w.touch i = w)
    (node : DbAny) :
    Follows buf c₀ (decodeArgRel db buf s i node) (w.imm db buf.window node) :=
  afterImm_tracks db h hi node _ fun _ => ⟨rfl, .inr rfl⟩

theorem decodeArgMoffs_tracks (h : Tracks buf c₀ s w) {i : Nat} (hi : w.touch i = w)
    (node : DbAny) :
    Follows buf c₀ (decodeArgMoffs db buf s i node) (w.moffs buf.window) := by
  have hasz : s.diagram.asz = w.asz := congrArg View.asz h.view
  unfold decodeArgMoffs Walk.moffs
  rw [hasz]
  cases moffsWidth w.asz with
  | none => exact ⟨rfl, h⟩
  | some p =>
      obtain ⟨dt, n⟩ := p
      rcases h.take .disp (by decide) n with ⟨htake, hread⟩ |
        ⟨bs, s', w', htake, hread, htracks, ho, -⟩
      · simp only [htake, hread]
        exact ⟨rfl, h⟩
      · simp only [htake, hread]
        exact ⟨rfl, htracks.written (Walk.touch_mono hi ho) rfl rfl⟩

theorem decodeArgPtr_tracks (h : Tracks buf c₀ s w) {i : Nat} (hi : w.touch i = w) :
    Follows buf c₀ (decodeArgPtr buf s i) (w.ptr buf.window) := by
  have hosz : s.diagram.osz = w.osz := congrArg View.osz h.view
  unfold decodeArgPtr Walk.ptr
  rcases h.take .absSeg (by decide) 2 with ⟨htake, hread⟩ |
    ⟨seg, s₁, w₁, htake, hread, h₁, ho₁, hosz₁, hd₁⟩
  · simp only [htake, hread]
    exact ⟨rfl, h⟩
  · simp only [htake, hread]
    rw [hd₁, hosz, ← hosz₁]
    cases ptrWidth w₁.osz with
    | none => exact ⟨rfl, h₁⟩
    | some p =>
        obtain ⟨dt, n⟩ := p
        rcases h₁.take .disp (by decide) n with ⟨htake, hread⟩ |
          ⟨bs, s', w', htake, hread, htracks, ho, -⟩
        · simp only [htake, hread]
          exact ⟨rfl, h₁⟩
        · simp only [htake, hread]
          exact ⟨rfl, htracks.written (Walk.touch_mono hi (ho.trans ho₁)) rfl rfl⟩

/-- The walk's touch of a slot that has been written before is no change. -/
theorem Tracks.touched (h : Tracks buf c₀ s w) {i j : Nat} (hj : w.vmem = some j ∨ w.vreg = some j) :
    (w.touch i).touch j = w.touch i := by
  have hw := h.slots j hj
  have ho : (w.overrun || decide (maxArguments ≤ j)) = w.overrun := congrArg (·.overrun) hw
  simp only [Walk.touch, Bool.or_assoc, Bool.or_comm (decide (maxArguments ≤ i))]
  rw [← Bool.or_assoc, ho]

theorem decodeNodeSwzReg_tracks (h : Tracks buf c₀ s w) :
    Follows buf c₀ (decodeNodeSwzReg s) (true, w) := by
  have hvreg : s.vreg = w.vreg := congrArg View.vreg h.view
  unfold decodeNodeSwzReg
  split
  · exact ⟨rfl, h⟩
  · rename_i j hj
    exact ⟨rfl, h.written (h.slots j (.inr (hvreg ▸ hj))) rfl rfl⟩

/-- The memory swizzle for a row that is not reserved. -/
theorem decodeNodeSwzMem_row_tracks (h : Tracks buf c₀ s w) {j : Nat} (hj : s.vmem = some j)
    (hi : w.touch j = w) (node : DbSwz) (hres : (node.row s.diagram.sss).reserved = false) :
    Follows buf c₀ (decodeNodeSwzMem db s node) (Walk.rowDecodes (node.row s.diagram.sss), w) := by
  unfold decodeNodeSwzMem
  generalize hrow : node.row s.diagram.sss = row at hres ⊢
  have h₁ : Tracks buf c₀ (s.modifyArgument j fun a => swzConvert a row) w :=
    h.written hi rfl rfl
  split
  · rename_i hnone
    rw [hj] at hnone
    exact absurd hnone (by simp)
  · rename_i j' hj'
    obtain rfl : j = j' := Option.some.inj (hj.symm.trans hj')
    simp only [hres, Bool.false_eq_true, if_false]
    by_cases hmdt : getDatatypeSize row.mdt = 0
    · rw [if_pos hmdt]
      exact ⟨by simp [Walk.rowDecodes, hmdt], h₁⟩
    · rw [if_neg hmdt]
      generalize hscale : Internal.modifyArgument (s.modifyArgument j fun a => swzConvert a row) j _
        = s₂
      have h₂ : Tracks buf c₀ s₂ w := by
        rw [← hscale]
        exact h₁.written hi rfl rfl
      by_cases hb : row.broadcasting
      · rw [if_pos hb]
        by_cases hvdt : getDatatypeSize row.vdt = 0
        · rw [if_pos hvdt]
          exact ⟨by simp [Walk.rowDecodes, hb, hvdt], h₂⟩
        · rw [if_neg hvdt]
          exact ⟨by simp [Walk.rowDecodes, hmdt, hvdt], h₂.written hi rfl rfl⟩
      · rw [if_neg hb]
        split
        · exact ⟨by simp [Walk.rowDecodes, hmdt, hb], h₂.written hi rfl rfl⟩
        · exact ⟨by simp [Walk.rowDecodes, hmdt, hb], h₂⟩

theorem decodeNodeSwzMem_none {s : Internal} (node : DbSwz) (hnone : s.vmem = none) :
    decodeNodeSwzMem db s node = (true, s) := by
  unfold decodeNodeSwzMem
  split
  · rfl
  · rename_i hj
    exact absurd (hnone.symm.trans hj) (by simp)

theorem decodeNodeSwzMem_reserved {s : Internal} {j : Nat} (node : DbSwz) (hj : s.vmem = some j)
    (hres : (node.row s.diagram.sss).reserved = true) :
    decodeNodeSwzMem db s node = (true, { s with insn.attributes.isUndefined := true }) := by
  unfold decodeNodeSwzMem
  split
  · rename_i hnone
    exact absurd (hj.symm.trans hnone) (by simp)
  · exact if_pos hres

theorem decodeNodeSwz_tracks (h : Tracks buf c₀ s w) (node : DbSwz) :
    Follows buf c₀ (decodeNodeSwz db s node) (w.swz node) := by
  have hvmem : s.vmem = w.vmem := congrArg View.vmem h.view
  have hsss : s.diagram.sss = w.sss := congrArg View.sss h.view
  unfold decodeNodeSwz Walk.swz
  by_cases hreg : node.onRegister
  · simpa only [hreg, if_true, Bool.true_or] using decodeNodeSwzReg_tracks h
  · simp only [hreg, Bool.false_eq_true, if_false, Bool.false_or]
    cases hj : s.vmem with
    | none =>
        rw [decodeNodeSwzMem_none db node hj, ← hvmem, hj]
        exact ⟨rfl, h⟩
    | some j =>
        have hi := h.slots j (.inl (hvmem ▸ hj))
        have hsome : w.vmem.isNone = false := by rw [← hvmem, hj]; rfl
        simp only [hsome, Bool.false_eq_true, if_false]
        cases hres : (node.row w.sss).reserved with
        | false =>
            rw [← hsss] at hres ⊢
            exact decodeNodeSwzMem_row_tracks db h hj hi node hres
        | true =>
            rw [decodeNodeSwzMem_reserved db node hj (hsss ▸ hres)]
            refine ⟨rfl, h.change rfl rfl ?_ fun k hk => Walk.touch_mono (h.slots k hk) rfl⟩
            exact congrArg (fun v : View => { v with undefined := true }) h.view

theorem decodeNodeBcst_tracks (h : Tracks buf c₀ s w) :
    Follows buf c₀ (decodeNodeBcst s) (w.vmem.isSome, w) := by
  have hvmem : s.vmem = w.vmem := congrArg View.vmem h.view
  unfold decodeNodeBcst
  split
  · rename_i hnone
    exact ⟨by simp [← hvmem, hnone], h⟩
  · rename_i j hj
    have hsome : true = w.vmem.isSome := by rw [← hvmem, hj]; rfl
    split
    · exact ⟨hsome, h.written (h.slots j (.inl (hvmem ▸ hj))) rfl rfl⟩
    · exact ⟨hsome, h⟩

theorem decodeNodeSbcst_tracks (h : Tracks buf c₀ s w) (node : DbSbcst) :
    Follows buf c₀ (decodeNodeSbcst s node) (true, w) := by
  have hvmem : s.vmem = w.vmem := congrArg View.vmem h.view
  unfold decodeNodeSbcst
  split
  · exact ⟨rfl, h⟩
  · rename_i j hj
    exact ⟨rfl, h.written (h.slots j (.inl (hvmem ▸ hj))) rfl rfl⟩

/-- A node decodes as the walk says. -/
theorem decodeNode_tracks (h : Tracks buf c₀ s w) (i : Nat) (node : DbNode) :
    Follows buf c₀ (decodeNode db buf s i node) (w.node db buf.window i node) := by
  have hi := w.touch_touch i
  have h₁ : Tracks buf c₀ (s.modifyArgument i fun a =>
      { a with type := .none, attributes := { isRepresentable := true }, printer := {} })
      (w.touch i) :=
    h.change rfl rfl
      (congrArg (fun v : View => { v with overrun := v.overrun || decide (maxArguments ≤ i) }) h.view)
      fun j hj => h.touched hj
  cases node with
  | reg node => exact decodeArgReg_tracks db h₁ hi node
  | vreg node => exact decodeArgVreg_tracks db h₁ hi node
  | preg node => exact decodeArgPreg_tracks db h₁ hi node
  | mem node => exact decodeArgMem_tracks db h₁ hi node
  | agen node => exact decodeArgAddress_tracks db h₁ hi node
  | mib node => exact decodeArgAddress_tracks db h₁ hi node
  | imm node => exact (decodeArgImm_tracks db h₁ hi node).1
  | rel node => exact decodeArgRel_tracks db h₁ hi node
  | moffs node => exact decodeArgMoffs_tracks db h₁ hi node
  | ptr node => exact decodeArgPtr_tracks h₁ hi
  | shift node => exact decodeArgImmShift_tracks db h₁ hi node
  | rotate node => exact decodeArgImmRotate_tracks db h₁ hi node
  | cc node => exact decodeArgCc_tracks db h₁ hi node
  | sae => exact ⟨rfl, h₁.written hi rfl rfl⟩
  | evh => exact ⟨rfl, h₁.written hi rfl rfl⟩
  | rc node => exact ⟨rfl, h₁.written hi rfl rfl⟩
  | bcst => exact decodeNodeBcst_tracks h₁
  | sbcst node => exact decodeNodeSbcst_tracks h₁ node
  | swz node => exact decodeNodeSwz_tracks db h₁ node
  | other => exact ⟨rfl, h₁⟩

end Nodes

end Amed.X86
