import Amed.X86.Walk

/-!
# The nodes of a template

A node that is decoded uses up its slot exactly when it leaves an argument type behind,
so the slots of `decode_nodes` are those of the walk and `decode_nodes` follows it. The
walk over a whole template only ever reads forward, and it does not see an end of the
buffer that lies behind everything it reads.
-/

namespace Amed.X86

open Bytes

/-! ## Slots -/

/-- The type of the argument in a slot. -/
def Internal.typeAt (s : Internal) (i : Nat) : ArgumentType := (s.insn.arguments i).type

@[simp] theorem typeAt_modifyArgument_same (s : Internal) (i : Nat) (f : Argument → Argument) :
    (s.modifyArgument i f).typeAt i = (f (s.insn.arguments i)).type := by
  simp [Internal.typeAt, Internal.modifyArgument]

theorem typeAt_modifyArgument (s : Internal) (i j : Nat) {f : Argument → Argument}
    (hf : ∀ a, (f a).type = a.type) : (s.modifyArgument j f).typeAt i = s.typeAt i := by
  by_cases h : i = j
  · subst h
    rw [typeAt_modifyArgument_same, hf]
    rfl
  · simp [Internal.typeAt, Internal.modifyArgument, Insn.setArgument_other _ _ h]

theorem typeAt_getIs4Value (buf : Buffer) (s : Internal) (i : Nat) :
    (getIs4Value buf s).2.typeAt i = s.typeAt i := by
  unfold getIs4Value
  split
  · rfl
  · split
    · rename_i htake
      obtain ⟨-, -, rfl⟩ := takeBytes_eq_some.mp htake
      rfl
    · rfl

theorem typeAt_registerValue (buf : Buffer) (s : Internal) (node : DbReg) (i : Nat) :
    (decodeNodeRegisterValue buf s node).2.typeAt i = s.typeAt i := by
  unfold decodeNodeRegisterValue
  split
  · rfl
  · split
    · exact typeAt_getIs4Value buf s i
    · rfl

theorem decodeArgReg_type (db : Db) (buf : Buffer) (s : Internal) (i : Nat) (node : DbReg) :
    (decodeArgReg db buf s i node).2.typeAt i = .register := by
  have hreg := typeAt_registerValue buf
    (s.modifyArgument i fun a => { a with type := .register }) node i
  rw [typeAt_modifyArgument_same] at hreg
  simpa [decodeArgReg, Internal.typeAt, Internal.modifyArgument] using hreg

theorem decodeArgPreg_type (db : Db) (buf : Buffer) (s : Internal) (i : Nat) (node : DbReg) :
    (decodeArgPreg db buf s i node).2.typeAt i = .register := by
  have hreg := decodeArgReg_type db buf s i node
  unfold decodeArgPreg
  dsimp only
  split
  · simpa [Internal.typeAt, Internal.modifyArgument] using hreg
  · simp only [Internal.typeAt, Internal.modifyArgument, Insn.setArgument_same]
    split <;> exact hreg

theorem decodeArgVreg_type (db : Db) (buf : Buffer) (s : Internal) (i : Nat) (node : DbReg) :
    (decodeArgVreg db buf s i node).2.typeAt i = .register := by
  have hreg := decodeArgReg_type db buf s i node
  simpa [decodeArgVreg, Internal.typeAt, Internal.modifyArgument] using hreg

theorem decodeArgImm_type (db : Db) (buf : Buffer) (s : Internal) (i : Nat) (node : DbAny) :
    (decodeArgImm db buf s i node).2.typeAt i = .immediate := by
  unfold decodeArgImm
  dsimp only
  generalize hs₁ : Internal.modifyArgument s i _ = s₁
  have h₁ : s₁.typeAt i = .immediate := by
    rw [← hs₁, typeAt_modifyArgument_same]
  split
  · exact (typeAt_modifyArgument s₁ i i (f := fun a => a.put Cell.immHalf node.value)
      fun a => rfl).trans h₁
  · split
    · rw [typeAt_modifyArgument _ i i fun a => by split <;> rfl, typeAt_getIs4Value, h₁]
    · split
      · exact h₁
      · rename_i htake
        obtain ⟨-, -, rfl⟩ := takeBytes_eq_some.mp htake
        rw [typeAt_modifyArgument _ i i fun a => by split <;> rfl]
        exact h₁

/-- A change after `decode_arg_imm` decides the type when the immediate was read. -/
theorem afterImm_type {db : Db} {buf : Buffer} {s : Internal} {i : Nat} {node : DbAny}
    {g : Internal → Internal} {t : ArgumentType}
    (hg : ∀ u : Internal, u.typeAt i = .immediate → (g u).typeAt i = t)
    (hok : (match decodeArgImm db buf s i node with
      | (false, s) => (false, s)
      | (true, s) => (true, g s)).1 = true) :
    (match decodeArgImm db buf s i node with
      | (false, s) => (false, s)
      | (true, s) => (true, g s)).2.typeAt i = t := by
  have himm := decodeArgImm_type db buf s i node
  generalize decodeArgImm db buf s i node = r at himm hok ⊢
  obtain ⟨ok, u⟩ := r
  cases ok with
  | false => exact absurd hok (by simp)
  | true => exact hg u himm

theorem typeAt_checkCount (s : Internal) (i low k : Nat) :
    (s.checkCount i low).typeAt k = s.typeAt k := by
  unfold Internal.checkCount
  split
  · rfl
  · split <;> rfl

theorem decodeArgMoffs_type {db : Db} {buf : Buffer} {s : Internal} {i : Nat} {node : DbAny}
    (hok : (decodeArgMoffs db buf s i node).1 = true) :
    (decodeArgMoffs db buf s i node).2.typeAt i = .memory := by
  unfold decodeArgMoffs at hok ⊢
  cases hwidth : moffsWidth s.diagram.asz with
  | none => simp [hwidth] at hok
  | some p =>
      obtain ⟨dt, n⟩ := p
      cases htake : s.takeBytes buf .disp n with
      | none => simp [hwidth, htake] at hok
      | some q =>
          obtain ⟨bs, s'⟩ := q
          simp [htake, Internal.typeAt, Internal.modifyArgument]

theorem decodeArgPtr_type {buf : Buffer} {s : Internal} {i : Nat}
    (hok : (decodeArgPtr buf s i).1 = true) :
    (decodeArgPtr buf s i).2.typeAt i = .ptr := by
  unfold decodeArgPtr at hok ⊢
  cases hseg : s.takeBytes buf .absSeg 2 with
  | none => simp [hseg] at hok
  | some p =>
      obtain ⟨seg, s₁⟩ := p
      simp only [hseg] at hok ⊢
      cases hwidth : ptrWidth s₁.diagram.osz with
      | none => simp [hwidth] at hok
      | some q =>
          obtain ⟨dt, n⟩ := q
          simp only [hwidth] at hok ⊢
          cases htake : s₁.takeBytes buf .disp n with
          | none => simp [htake] at hok
          | some r =>
              obtain ⟨disp, s₂⟩ := r
              exact typeAt_modifyArgument_same _ _ _

theorem decodeNodeSwz_type (db : Db) (s : Internal) (node : DbSwz) (i : Nat) :
    (decodeNodeSwz db s node).2.typeAt i = s.typeAt i := by
  unfold decodeNodeSwz
  split
  · unfold decodeNodeSwzReg
    split
    · rfl
    · exact typeAt_modifyArgument _ _ _ fun _ => rfl
  · unfold decodeNodeSwzMem
    split
    · rfl
    · rename_i j hj
      dsimp only
      split
      · rfl
      · generalize hs₁ : Internal.modifyArgument s j _ = s₁
        have h₁ : s₁.typeAt i = s.typeAt i := by
          rw [← hs₁]
          exact typeAt_modifyArgument s i j (f := fun a => swzConvert a _) fun a => rfl
        split
        · exact h₁
        · generalize hs₂ : Internal.modifyArgument s₁ j _ = s₂
          have h₂ : s₂.typeAt i = s.typeAt i := by
            rw [← hs₂, ← h₁]
            exact typeAt_modifyArgument _ _ _ fun _ => by split <;> rfl
          split
          · split
            · exact h₂
            · refine (typeAt_modifyArgument _ _ _ ?_).trans h₂
              intro
              rfl
          · split
            · refine (typeAt_modifyArgument _ _ _ ?_).trans h₂
              intro
              rfl
            · exact h₂

theorem decodeNodeBcst_type (s : Internal) (i : Nat) :
    (decodeNodeBcst s).2.typeAt i = s.typeAt i := by
  unfold decodeNodeBcst
  split
  · rfl
  · split
    · exact typeAt_modifyArgument _ _ _ fun _ => rfl
    · rfl

theorem decodeNodeSbcst_type (s : Internal) (node : DbSbcst) (i : Nat) :
    (decodeNodeSbcst s node).2.typeAt i = s.typeAt i := by
  unfold decodeNodeSbcst
  split
  · rfl
  · exact typeAt_modifyArgument _ _ _ fun _ => rfl

theorem decodeArgMem_type (db : Db) (buf : Buffer) (s : Internal) (i : Nat) (node : DbMem) :
    (decodeArgMem db buf s i node).2.typeAt i = .memory := by
  simp [decodeArgMem, Internal.typeAt, Internal.modifyArgument]

theorem decodeNodeRc_type (s : Internal) (i : Nat) (node : DbAny) :
    (decodeNodeRc s i node).2.typeAt i = .rounding := by
  simp [decodeNodeRc, Internal.typeAt, Internal.modifyArgument]

/-- A decoded node leaves an argument type behind exactly when it uses up its slot. -/
theorem decodeNode_type {db : Db} {buf : Buffer} {s : Internal} {i : Nat} {node : DbNode}
    (hok : (decodeNode db buf s i node).1 = true) :
    (decodeNode db buf s i node).2.typeAt i = .none ↔ node.takesSlot = false := by
  let s₁ := s.modifyArgument i fun a =>
    { a with type := .none, attributes := { isRepresentable := true }, printer := {} }
  have hs₁ : s₁.typeAt i = .none := typeAt_modifyArgument_same _ _ _
  have typed : ∀ {t : ArgumentType}, (decodeNode db buf s i node).2.typeAt i = t → t ≠ .none →
      node.takesSlot = true →
        ((decodeNode db buf s i node).2.typeAt i = .none ↔ node.takesSlot = false) := by
    intro t ht hne hslot
    simp [ht, hne, hslot]
  have untyped : (decodeNode db buf s i node).2.typeAt i = .none → node.takesSlot = false →
      ((decodeNode db buf s i node).2.typeAt i = .none ↔ node.takesSlot = false) :=
    fun ht hslot => by simp [ht, hslot]
  cases node with
  | reg node => exact typed (decodeArgReg_type db buf s₁ i node) (by decide) rfl
  | vreg node => exact typed (decodeArgVreg_type db buf s₁ i node) (by decide) rfl
  | preg node => exact typed (decodeArgPreg_type db buf s₁ i node) (by decide) rfl
  | mem node => exact typed (decodeArgMem_type db buf s₁ i node) (by decide) rfl
  | agen node => exact typed (typeAt_modifyArgument_same _ _ _) (t := .address) (by decide) rfl
  | mib node => exact typed (typeAt_modifyArgument_same _ _ _) (t := .address) (by decide) rfl
  | imm node => exact typed (decodeArgImm_type db buf s₁ i node) (by decide) rfl
  | rel node =>
      refine typed (afterImm_type (t := .label) (fun u _ => ?_) hok) (by decide) rfl
      exact typeAt_modifyArgument_same _ _ _
  | moffs node => exact typed (decodeArgMoffs_type hok) (by decide) rfl
  | ptr node => exact typed (decodeArgPtr_type hok) (by decide) rfl
  | shift node =>
      refine typed (afterImm_type (t := .immediate) (fun u hu => ?_) hok) (by decide) rfl
      split
      · rw [typeAt_checkCount, hu]
      · rw [typeAt_checkCount, hu]
      · exact hu
  | rotate node =>
      refine typed (afterImm_type (t := .immediate) (fun u hu => ?_) hok) (by decide) rfl
      rw [typeAt_checkCount, hu]
  | cc node =>
      refine typed (afterImm_type (t := .condition) (fun u _ => ?_) hok) (by decide) rfl
      rw [typeAt_modifyArgument_same]
      dsimp only
      split <;> rfl
  | sae => exact typed (typeAt_modifyArgument_same _ _ _) (t := .sae) (by decide) rfl
  | evh => exact typed (typeAt_modifyArgument_same _ _ _) (t := .evh) (by decide) rfl
  | rc node => exact typed (decodeNodeRc_type s₁ i node) (by decide) rfl
  | bcst => exact untyped ((decodeNodeBcst_type s₁ i).trans hs₁) rfl
  | sbcst node => exact untyped ((decodeNodeSbcst_type s₁ node i).trans hs₁) rfl
  | swz node => exact untyped ((decodeNodeSwz_type db s₁ node i).trans hs₁) rfl
  | other => exact untyped hs₁ rfl

/-- The walk before the first node of a template. -/
def Internal.walk (s : Internal) : Walk := { s.view with fields := [] }

theorem decodeNodes_follows {db : Db} {buf : Buffer} {c₀ : Cursor} (nodes : List DbNode) (i : Nat)
    {s : Internal} {w : Walk} (h : Tracks buf c₀ s w) :
    Follows buf c₀ (decodeNodes db buf nodes i s) (Walk.nodes db buf.window nodes i w) := by
  induction nodes generalizing i s w with
  | nil => exact ⟨rfl, h.unseen rfl rfl⟩
  | cons node nodes ih =>
      obtain ⟨hok, htracks⟩ := decodeNode_tracks db h i node
      have htype := @decodeNode_type db buf s i node
      unfold decodeNodes Walk.nodes
      generalize decodeNode db buf s i node = r at hok htracks htype
      generalize w.node db buf.window i node = q at hok htracks
      obtain ⟨ok, s'⟩ := r
      obtain ⟨ok', w'⟩ := q
      obtain rfl : ok = ok' := hok
      cases ok with
      | false => exact ⟨rfl, htracks⟩
      | true =>
          have hslot : (if (s'.insn.arguments i).type = .none then i else i + 1) =
              if node.takesSlot then i + 1 else i := by
            have hiff : (s'.insn.arguments i).type = .none ↔ node.takesSlot = false := htype rfl
            cases hs : node.takesSlot <;> simp [hiff, hs]
          simp only [hslot]
          exact ih _ htracks

/-- `decode_nodes` follows the walk over the nodes of the template. -/
theorem decodeNodes_tracks (db : Db) (buf : Buffer) (nodes : List DbNode) {s : Internal}
    (hvmem : s.vmem = none) (hvreg : s.vreg = none) :
    Follows buf s.cursor (decodeNodes db buf nodes 0 s)
      (Walk.nodes db buf.window nodes 0 s.walk) := by
  refine decodeNodes_follows nodes 0 ⟨Consumes.refl _ _, by simp [Internal.walk], rfl, ?_⟩
  rintro j (hj | hj)
  · exact absurd (hvmem.symm.trans hj) (by simp)
  · exact absurd (hvreg.symm.trans hj) (by simp)

/-! ## A walk reads forward -/

/-- What a stretch of a walk keeps, and how it grows. -/
structure Walk.Grows (w w' : Walk) : Prop where
  asz : w'.asz = w.asz
  osz : w'.osz = w.osz
  sss : w'.sss = w.sss
  fields : ∃ fs, w'.fields = w.fields ++ fs ∧ w'.pc = w.pc + width fs
  undefined : w.undefined = true → w'.undefined = true

namespace Walk

variable {win : Window} {w w' w'' : Walk}

theorem Grows.pc_le (h : w.Grows w') : w.pc ≤ w'.pc := by
  obtain ⟨fs, -, hpc⟩ := h.fields
  omega

/-- A stretch that reads nothing. -/
theorem Grows.unread (h : w'.asz = w.asz ∧ w'.osz = w.osz ∧ w'.sss = w.sss)
    (hf : w'.fields = w.fields ∧ w'.pc = w.pc) (hu : w.undefined = true → w'.undefined = true) :
    w.Grows w' :=
  ⟨h.1, h.2.1, h.2.2, ⟨[], by simp [hf.1], by simp [hf.2]⟩, hu⟩

theorem Grows.refl (w : Walk) : w.Grows w := .unread ⟨rfl, rfl, rfl⟩ ⟨rfl, rfl⟩ id

theorem Grows.trans (h : w.Grows w') (h' : w'.Grows w'') : w.Grows w'' where
  asz := h'.asz.trans h.asz
  osz := h'.osz.trans h.osz
  sss := h'.sss.trans h.sss
  fields := by
    obtain ⟨fs, hfs, hpc⟩ := h.fields
    obtain ⟨gs, hgs, hpc'⟩ := h'.fields
    exact ⟨fs ++ gs, by rw [hgs, hfs, List.append_assoc], by rw [hpc', hpc, width_append]; omega⟩
  undefined := h'.undefined ∘ h.undefined

theorem read_grows {type : BytecodeType} {n : Nat} (h : w.read win type n = some w') :
    w.Grows w' := by
  obtain ⟨-, rfl⟩ := read_eq_some h
  exact ⟨rfl, rfl, rfl, ⟨[_], rfl, by simp⟩, id⟩

theorem is4_grows (win : Window) (w : Walk) : w.Grows (w.is4 win) := by
  unfold is4
  split
  · exact .refl w
  · split
    · exact .refl w
    · rename_i hread
      obtain ⟨h₁, h₂, h₃, h₄, h₅⟩ := read_grows hread
      exact ⟨h₁, h₂, h₃, h₄, h₅⟩

theorem register_grows (win : Window) (w : Walk) (node : DbReg) : w.Grows (w.register win node) := by
  unfold register
  split
  · exact is4_grows win w
  · exact .refl w

theorem optionalRegister_grows (win : Window) (w : Walk) (node : Option DbReg) :
    w.Grows (w.optionalRegister win node) := by
  cases node with
  | none => exact .refl w
  | some node => exact register_grows win w node

theorem memory_grows (win : Window) (w : Walk) (i : Nat) (node : DbMem) :
    w.Grows (w.memory win i node) := by
  unfold memory
  dsimp only
  split
  · exact .unread ⟨rfl, rfl, rfl⟩ ⟨rfl, rfl⟩ id
  · obtain ⟨h₁, h₂, h₃, h₄, h₅⟩ := (optionalRegister_grows win w node.seg).trans
      (optionalRegister_grows win _ node.base)
    exact ⟨h₁, h₂, h₃, h₄, h₅⟩

theorem imm_grows (db : Db) (win : Window) (w : Walk) (node : DbAny) :
    w.Grows (w.imm db win node).2 := by
  unfold imm
  split
  · exact .refl w
  · split
    · exact is4_grows win w
    · split
      · exact .refl w
      · exact read_grows ‹_›

theorem moffs_grows (win : Window) (w : Walk) : w.Grows (w.moffs win).2 := by
  unfold moffs
  split
  · exact .refl w
  · split
    · exact .refl w
    · exact read_grows ‹_›

theorem ptr_grows (win : Window) (w : Walk) : w.Grows (w.ptr win).2 := by
  unfold ptr
  split
  · exact .refl w
  · rename_i hseg
    split
    · exact read_grows hseg
    · split
      · exact read_grows hseg
      · exact (read_grows hseg).trans (read_grows ‹_›)

theorem swz_grows (w : Walk) (node : DbSwz) : w.Grows (w.swz node).2 := by
  unfold swz
  split
  · exact .refl w
  · dsimp only
    split
    · exact .unread ⟨rfl, rfl, rfl⟩ ⟨rfl, rfl⟩ fun _ => rfl
    · exact .refl w

theorem touch_grows (w : Walk) (i : Nat) : w.Grows (w.touch i) :=
  .unread ⟨rfl, rfl, rfl⟩ ⟨rfl, rfl⟩ id

theorem node_grows (db : Db) (win : Window) (w : Walk) (i : Nat) (node : DbNode) :
    w.Grows (w.node db win i node).2 := by
  refine (touch_grows w i).trans ?_
  cases node with
  | reg node => exact register_grows win _ node
  | preg node => exact register_grows win _ node
  | vreg node =>
      obtain ⟨h₁, h₂, h₃, h₄, h₅⟩ := register_grows win (w.touch i) node
      exact ⟨h₁, h₂, h₃, h₄, h₅⟩
  | mem node => exact memory_grows win _ i node
  | agen node => exact memory_grows win _ i node
  | mib node => exact memory_grows win _ i node
  | imm node => exact imm_grows db win _ node
  | rel node => exact imm_grows db win _ node
  | shift node => exact imm_grows db win _ node
  | rotate node => exact imm_grows db win _ node
  | cc node => exact imm_grows db win _ node
  | moffs node => exact moffs_grows win _
  | ptr node => exact ptr_grows win _
  | swz node => exact swz_grows _ node
  | _ => exact .refl _

theorem nodes_grows (db : Db) (win : Window) (nodes : List DbNode) (i : Nat) (w : Walk) :
    w.Grows (Walk.nodes db win nodes i w).2 := by
  induction nodes generalizing i w with
  | nil => exact .refl w
  | cons node nodes ih =>
      have hnode := node_grows db win w i node
      unfold Walk.nodes
      generalize w.node db win i node = q at hnode
      obtain ⟨ok, w'⟩ := q
      cases ok with
      | false => exact hnode
      | true => exact hnode.trans (ih _ w')

end Walk

end Amed.X86
