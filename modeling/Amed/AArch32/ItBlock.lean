import Amed.AArch32.Excerpt
import Amed.AArch32.Outcome

/-!
# IT blocks over a stream of Thumb instructions

What the IT block of the context says while instructions are decoded one after the other, and what
the architecture says.

## Implementation notes

`decode_it` takes the first condition from the token of argument 0, which is the `XYZ` node that has
nothing to decode: the token is the one the caller's record held. No instruction moves `index` or
clears `is_in`, so the last IT instruction holds for all that follow.
-/

namespace Amed.AArch32

open Search

/-! ## The architecture -/

/-- A 16-bit IT instruction. -/
def IsItWord (opcode : BitVec 32) : Prop :=
  opcode &&& 0xff00 = 0xbf00 ∧ opcode.toNat % 16 ≠ 0

instance (opcode : BitVec 32) : Decidable (IsItWord opcode) :=
  inferInstanceAs (Decidable (_ ∧ _))

/-- The conditions of the instructions behind an IT instruction, as enumerators: the upper bits of
`firstcond`, each with its own bit of `firstcond<0>:mask<3:1>`. -/
def itCovered (opcode : BitVec 32) : List Nat :=
  let firstcond := opcode.toNat / 16 % 16
  let mask := opcode.toNat % 16
  let bits := [firstcond % 2, mask / 8, mask / 4 % 2, mask / 2 % 2]
  let n :=
    if mask % 2 = 1 then 4 else if mask / 2 % 2 = 1 then 3 else if mask / 4 % 2 = 1 then 2 else 1
  (bits.take n).map fun bit => 2 * (firstcond / 2) + bit + Condition.eq

/-- The conditions that remain behind an instruction. -/
def itAdvance (remaining : List Nat) (opcode : BitVec 32) : List Nat :=
  if IsItWord opcode then itCovered opcode else remaining.tail

/-! ## Tables -/

/-- The tables as the generator writes them: IT has one encoding, that encoding one template, whose
first node is `XYZ`, and it is neither an alias nor has one. -/
structure ThumbDb extends Db where
  it : Nat
  itTemplate : Nat
  itNode : DbNode
  it_lookup : ∀ opcode, opcode.toNat < 2 ^ 16 → IsItWord opcode → toDb.lookup .t16 opcode = it
  it_narrow : ∀ opcode, toDb.lookup .t16 opcode = it → opcode.toNat % 16 ≠ 0
  it_wide : ∀ opcode, toDb.lookup .t32 opcode ≠ it
  it_opcode : (encodings it).opcode = 0xbf00
  it_mask : (encodings it).mask = 0xff00
  it_hasAlias : (encodings it).hasAlias = false
  it_candidates : candidates toDb (encodings it) = [itTemplate]
  it_iform : (templates itTemplate).iform = iformIt
  it_arguments : arguments (templates itTemplate).arguments = [.xyz, itNode]
  it_only : ∀ e, e ≠ it → ∀ t ∈ candidates toDb (encodings e), (templates t).iform ≠ iformIt
  it_aliases : ∀ i, it ∉ aliases i

/-! ## One instruction -/

/-- What an instruction sees of the IT block: nothing outside of one, its condition inside. -/
def seenCondition (itblock : ItBlock) : Option Nat :=
  if itblock.isIn then some (itblock.conditions itblock.index) else none

/-- The decoder runs an instruction under the condition it sees, or under AL. -/
theorem thumbCondition_eq (itblock : ItBlock) :
    thumbCondition itblock = (seenCondition itblock).getD Condition.al := by
  unfold thumbCondition seenCondition
  split <;> rfl

theorem isInsnInItBlock_eq (s : Internal) :
    isInsnInItBlock s = (seenCondition s.context.itblock).isSome := by
  unfold isInsnInItBlock seenCondition
  split <;> simp_all

variable (d : ThumbDb)

/-- A template that is not IT leaves the IT block alone. -/
theorem decodeExecution_of_not_it {db : Db} {s : Internal}
    (h : (db.templates s.ptemplate).iform ≠ iformIt) : (decodeExecution db s).context = s.context := by
  unfold decodeExecution
  rw [if_neg h]
  split <;> rfl

theorem decodeEncoding_of_not_it {db : Db} {encoding : Nat} (s : Internal)
    (h : ∀ t ∈ candidates db (db.encodings encoding), (db.templates t).iform ≠ iformIt) :
    (decodeEncoding db encoding s).2.context = s.context := by
  generalize hr : decodeEncoding db encoding s = r
  have houtcome := decodeEncoding_outcome db encoding s
  rw [hr] at houtcome
  cases houtcome with
  | mismatched _ => rfl
  | rejected _ _ hleaves => exact hleaves.context
  | @accepted s' t _ ht _ hleaves =>
      have hentered := hleaves.trans (enteredNodes_leaves db t s')
      have hexecution : (decodeExecution db (enteredNodes db t s').2).context =
          (enteredNodes db t s').2.context := by
        apply decodeExecution_of_not_it
        rw [enteredNodes_ptemplate]
        exact h t ht
      exact hexecution.trans hentered.context

/-- Whatever the mask, the first condition is the one that is passed. -/
theorem itConditions_first (mask first : Nat) : (itConditions mask first).2.getD 0 0 = first := by
  unfold itConditions
  dsimp only
  split
  · rfl
  · split
    · rfl
    · split
      · rfl
      · split <;> rfl

/-- IT leaves a block whose condition is the token it found in argument 0. -/
theorem decodeIt_seen (s : Internal) :
    seenCondition (decodeIt s).context.itblock =
      some ((s.insn.arguments 0).get Cell.token % 2 ^ 8) := by
  have hfirst := itConditions_first (s.opcode.toNat % 16) ((s.insn.arguments 0).get Cell.token)
  unfold seenCondition decodeIt
  rw [if_pos rfl]
  dsimp only
  rw [hfirst]

/-- The nodes of IT leave the token of argument 0. -/
theorem enteredNodes_token (s : Internal) :
    ((enteredNodes d.toDb d.itTemplate s).2.insn.arguments 0).get Cell.token =
      (s.insn.arguments 0).get Cell.token := by
  rw [enteredNodes, d.it_arguments, decodeNodesFrom_cons]
  change ((decodeNodesFrom d.toDb [d.itNode] 1 _).2.insn.arguments 0).get Cell.token = _
  rw [decodeNodesFrom_below d.toDb _ 1 _ Nat.zero_lt_one, afterNode]
  change (Insn.arguments (Insn.setArgument _ 0 _) 0).get Cell.token = _
  rw [Insn.setArgument_same]
  rfl

/-- A decoded IT instruction leaves the condition that it found. -/
theorem decodeEncoding_it {s : Internal} (harm : s.isArm = false)
    (hok : (decodeEncoding d.toDb d.it s).1 = true) :
    seenCondition (decodeEncoding d.toDb d.it s).2.context.itblock =
      some ((s.insn.arguments 0).get Cell.token % 2 ^ 8) := by
  have hmatch := ((decodeEncoding_fst_iff d.toDb d.it s).mp hok).1
  have htry : decodeEncoding d.toDb d.it s =
      tryEach (decodeTemplate d.toDb) [d.itTemplate] { s with encoding := d.it } := by
    rw [← d.it_candidates]
    exact if_neg (not_not.mpr hmatch)
  rw [htry] at hok ⊢
  have htemplate : (decodeTemplate d.toDb d.itTemplate { s with encoding := d.it }).1 = true := by
    by_contra hfail
    rw [Bool.not_eq_true] at hfail
    rw [tryEach_of_rejected _ hfail] at hok
    cases hok
  rw [tryEach_of_accepted _ htemplate]
  rw [decodeTemplate_fst] at htemplate
  have hconditions := htemplate
  rw [templateDecodes, Bool.and_eq_true] at hconditions
  rw [decodeTemplate_eq, if_pos hconditions.1, if_pos htemplate]
  have hleaves := enteredNodes_leaves d.toDb d.itTemplate { s with encoding := d.it }
  change seenCondition (decodeExecution d.toDb _).context.itblock = _
  rw [decodeExecution, hleaves.isArm, if_neg (by rw [harm]; exact Bool.false_ne_true),
    if_pos (by rw [enteredNodes_ptemplate, d.it_iform]), decodeIt_seen, enteredNodes_token]

/-! ## One call -/

variable (ctx : Context) (stale : Internal) (insn : Insn)

/-- The first 16 bits at the address. -/
def firstWord : BitVec 32 := readWord ctx 2

/-- The token a record holds in argument 0, cut to the byte it is stored in. -/
def foundToken : Nat := (insn.arguments 0).get Cell.token % 2 ^ 8

theorem readWord_lt : (firstWord ctx).toNat < 2 ^ 16 := by
  have hlt := Bytes.leNat_lt (Bytes.slice ctx.address 0 2)
  rw [Bytes.slice_length] at hlt
  unfold firstWord readWord
  rw [BitVec.toNat_ofNat]
  omega

/-- An IT word is a 16-bit instruction. -/
theorem isThumb16_of_it {opcode : BitVec 32} (h : IsItWord opcode) : isThumb16 opcode = true := by
  have hclear : opcode.getLsbD 14 = false := by
    have hbit := congrArg (fun w => w.getLsbD 14) h.1
    simpa using hbit
  have hop : opcode.toNat / 2 ^ 13 % 8 ≠ 7 := by
    rw [BitVec.getLsbD, Nat.testBit_eq_decide_div_mod_eq, decide_eq_false_iff_not] at hclear
    omega
  unfold isThumb16
  rw [Bool.or_eq_true, decide_eq_true_eq]
  exact Or.inl hop

variable {isa : Isa} {opcode : BitVec 32}

/-- An alias is not IT. -/
theorem chosenAlias_ne_it {palias : Nat}
    (h : chosenAlias d.toDb ctx stale insn isa opcode = some palias) : palias ≠ d.it := by
  unfold chosenAlias at h
  split at h
  · intro hit
    have hmem := List.mem_of_find?_eq_some h
    rw [hit] at hmem
    exact d.it_aliases _ hmem
  · cases h

/-- An instruction that is not looked up as IT leaves the context alone. -/
theorem decodeFetched_of_ne_it (h : d.lookup isa opcode ≠ d.it) :
    (decodeFetched d.toDb ctx stale insn isa opcode).2.context = ctx := by
  have hbase : (baseState d.toDb ctx stale insn isa opcode).context = ctx :=
    decodeEncoding_of_not_it _ (d.it_only _ h)
  rw [decodeFetched_eq]
  dsimp only
  split
  · rw [aliasStep_eq]
    split
    · exact hbase
    · rename_i palias hchosen
      have hne := chosenAlias_ne_it d ctx stale insn hchosen
      have halias : (decodeEncoding d.toDb palias
          (baseState d.toDb ctx stale insn isa opcode)).2.context = ctx :=
        (decodeEncoding_of_not_it _ (d.it_only _ hne)).trans hbase
      dsimp only
      split <;> exact halias
  · exact hbase

/-- An instruction that is looked up as IT leaves the condition that it found. -/
theorem decodeFetched_of_it (hisa : isa ≠ .a32) (h : d.lookup isa opcode = d.it)
    (hok : (decodeFetched d.toDb ctx stale insn isa opcode).1 = true) :
    seenCondition (decodeFetched d.toDb ctx stale insn isa opcode).2.context.itblock =
      some (foundToken insn) := by
  have hchosen : chosenAlias d.toDb ctx stale insn isa opcode = none := by
    have hwants : wantsAlias d.toDb ctx (d.lookup isa opcode)
        (baseState d.toDb ctx stale insn isa opcode) = false := by
      rw [wantsAlias, h, d.it_hasAlias, Bool.and_false, Bool.false_and]
    rw [chosenAlias, hwants]
    rfl
  rw [decodeFetched_eq] at hok ⊢
  dsimp only at hok ⊢
  rw [if_pos hok, aliasStep_eq, hchosen]
  dsimp only
  rw [baseDecodes, h] at hok
  rw [baseState, h]
  exact decodeEncoding_it d (s := startState ctx stale insn isa opcode)
    (by simpa [startState] using hisa) hok

/-- What the context says behind a Thumb instruction: after IT the condition that it found, after
another instruction what it said before. -/
theorem decodeInsn_seen (hmode : ctx.machineMode = .thumb)
    (hok : (decodeInsn d.toDb ctx stale insn).1 = true) :
    seenCondition (decodeInsn d.toDb ctx stale insn).2.2.itblock =
      if IsItWord (firstWord ctx) then some (foundToken insn) else seenCondition ctx.itblock := by
  unfold decodeInsn at hok ⊢
  split at hok
  · cases hok
  · rename_i hlength
    rw [if_neg hlength]
    split at hok
    · cases hok
    · rename_i isa opcode hfetch
      dsimp only at hok ⊢
      rw [fetchOpcode, hmode] at hfetch
      dsimp only at hfetch
      split at hfetch
      · cases hfetch
      · split at hfetch
        · -- a 16-bit instruction: it is IT exactly where the lookup says so
          obtain ⟨rfl, rfl⟩ := Prod.mk.inj (Option.some.inj hfetch)
          change (decodeFetched d.toDb ctx stale insn .t16 (firstWord ctx)).1 = true at hok
          change seenCondition
            (decodeFetched d.toDb ctx stale insn .t16 (firstWord ctx)).2.context.itblock = _
          by_cases hit : IsItWord (firstWord ctx)
          · rw [if_pos hit]
            exact decodeFetched_of_it d ctx stale insn (by decide)
              (d.it_lookup _ (readWord_lt ctx) hit) hok
          · rw [if_neg hit, decodeFetched_of_ne_it d ctx stale insn]
            intro hlookup
            have hdecodes := hok
            rw [decodeFetched_eq, baseDecodes, hlookup] at hdecodes
            have hmatch := ((decodeEncoding_fst_iff d.toDb d.it _).mp hdecodes).1
            rw [d.it_mask, d.it_opcode] at hmatch
            exact hit ⟨hmatch, d.it_narrow _ hlookup⟩
        · -- a 32-bit instruction is not IT
          rename_i hwide
          have hnot : ¬IsItWord (firstWord ctx) := fun hit => hwide (isThumb16_of_it hit)
          split at hfetch
          · cases hfetch
          · obtain ⟨rfl, rfl⟩ := Prod.mk.inj (Option.some.inj hfetch)
            rw [if_neg hnot, decodeFetched_of_ne_it d ctx stale insn (d.it_wide _)]

theorem decodeInsn_mode (hmode : ctx.machineMode = .thumb) :
    (decodeInsn d.toDb ctx stale insn).2.2.machineMode = .thumb := by
  unfold decodeInsn
  split
  · exact hmode
  · split
    · exact hmode
    · dsimp only
      rw [decodeFetched_context]
      exact hmode

/-! ## A stream -/

/-- One call of the decoder: the bytes it is shown, and the memory and the record it finds. -/
structure Call where
  address : Nat → UInt8
  length : Int
  stale : Internal
  insn : Insn

/-- The context of a call, the same from call to call but for the address and the length. -/
def Call.enter (call : Call) (ctx : Context) : Context :=
  { ctx with address := call.address, length := call.length }

/-- The first 16 bits of a call. -/
def Call.word (call : Call) : BitVec 32 :=
  BitVec.ofNat 32 (Bytes.leNat (Bytes.slice call.address 0 2))

/-- What a call returns, with the context it leaves. -/
def Call.decode (call : Call) (ctx : Context) : Bool × Insn × Context :=
  decodeInsn d.toDb (call.enter ctx) call.stale call.insn

/-- All calls of a stream decode an instruction. -/
def StreamDecodes (ctx : Context) : List Call → Prop
  | [] => True
  | call :: calls =>
      (call.decode d ctx).1 = true ∧ StreamDecodes (call.decode d ctx).2.2 calls

/-- Every instruction of a stream sees what the architecture says. -/
def SeesArchitecture (ctx : Context) (remaining : List Nat) : List Call → Prop
  | [] => True
  | call :: calls =>
      seenCondition ctx.itblock = remaining.head? ∧
        SeesArchitecture (call.decode d ctx).2.2 (itAdvance remaining call.word) calls

/-- The tokens the records hold for IT fit the stream: between two IT instructions, and behind the
last one, every instruction is covered under the condition found by the IT before it. -/
def TokensFit (found : Option Nat) (remaining : List Nat) : List Call → Prop
  | [] => True
  | call :: calls =>
      found = remaining.head? ∧
        TokensFit (if IsItWord call.word then some (foundToken call.insn) else found)
          (itAdvance remaining call.word) calls

theorem Call.decode_seen {call : Call} {ctx : Context} (hmode : ctx.machineMode = .thumb)
    (hok : (call.decode d ctx).1 = true) :
    (call.decode d ctx).2.2.machineMode = .thumb ∧
      seenCondition (call.decode d ctx).2.2.itblock =
        if IsItWord call.word then some (foundToken call.insn) else seenCondition ctx.itblock :=
  ⟨decodeInsn_mode d (call.enter ctx) call.stale call.insn hmode,
    decodeInsn_seen d (call.enter ctx) call.stale call.insn hmode hok⟩

/-- One step of the stream is `Call.decode_seen`; the induction carries what the context says. -/
theorem seesArchitecture_iff {found : Option Nat} {remaining : List Nat} {calls : List Call}
    (hmode : ctx.machineMode = .thumb) (hfound : seenCondition ctx.itblock = found)
    (hok : StreamDecodes d ctx calls) :
    SeesArchitecture d ctx remaining calls ↔ TokensFit found remaining calls := by
  induction calls generalizing ctx found remaining with
  | nil => exact Iff.rfl
  | cons call calls ih =>
      obtain ⟨hcall, hcalls⟩ := hok
      obtain ⟨hmode', hseen⟩ := call.decode_seen d hmode hcall
      rw [SeesArchitecture, TokensFit, hfound]
      rw [hfound] at hseen
      exact and_congr_right' (ih _ hmode' hseen hcalls)

/-- A Thumb stream that starts outside an IT block is decoded under the conditions of its IT
instructions exactly where the tokens fit. -/
theorem itBlock_iff (d : ThumbDb) (ctx : Context) (calls : List Call)
    (hmode : ctx.machineMode = .thumb) (hout : ctx.itblock.isIn = false)
    (hok : StreamDecodes d ctx calls) :
    SeesArchitecture d ctx [] calls ↔ TokensFit none [] calls := by
  apply seesArchitecture_iff d ctx hmode ?_ hok
  rw [seenCondition, hout]
  rfl

namespace Excerpt

/-- The tests of the lookups see an opcode as it is. -/
theorem setWidth_and_eq_iff (opcode mask value : BitVec 32) :
    opcode.setWidth 64 &&& mask.setWidth 64 = value.setWidth 64 ↔ opcode &&& mask = value := by
  rw [← BitVec.setWidth_and]
  constructor
  · intro h
    have hback := congrArg (BitVec.setWidth 32) h
    simpa using hback
  · intro h
    rw [h]

theorem and_fifteen_eq_zero_iff (opcode : BitVec 32) : opcode &&& 0xf = 0 ↔ opcode.toNat % 16 = 0 := by
  rw [← BitVec.toNat_inj, BitVec.toNat_and]
  exact Iff.of_eq (congrArg (· = 0) (Nat.and_two_pow_sub_one_eq_mod opcode.toNat 4))

/-- The excerpt looks up as IT what is IT. -/
theorem lookup_it_iff (opcode : BitVec 32) : tables.lookup .t16 opcode = 192 ↔ IsItWord opcode := by
  have hhigh := setWidth_and_eq_iff opcode 0xff00 0xbf00
  have hlow := setWidth_and_eq_iff opcode 0xf 0
  rw [and_fifteen_eq_zero_iff] at hlow
  change opcode.setWidth 64 &&& 0xff00 = 0xbf00 ↔ _ at hhigh
  change opcode.setWidth 64 &&& 0xf = 0 ↔ _ at hlow
  simp only [Db.lookup, tables, Generator.Tree.walk, Generator.Test.holds, List.all_nil,
    Bool.and_true, decide_eq_true_eq, ne_eq, hhigh, hlow, IsItWord]
  split
  · rename_i hop
    split
    · rename_i hmask
      exact iff_of_true rfl ⟨hop, hmask⟩
    · rename_i hmask
      refine iff_of_false ?_ fun hit => hmask hit.2
      split <;> decide
  · rename_i hop
    exact iff_of_false (by decide) fun hit => hop hit.1

theorem candidates_not_it (e : Nat) (h : e ≠ 192) :
    ∀ t ∈ candidates tables (tables.encodings e), (tables.templates t).iform ≠ iformIt := by
  intro t ht hit
  have hmem := List.mem_of_mem_filter ht
  have h201 : t = 201 := by
    change (templates t).iform = iformIt at hit
    unfold templates at hit
    split at hit
    · rfl
    · exact absurd hit (by decide)
    · exact absurd hit (by decide)
  change t ∈ List.range' (encodings e).firstTemplate (encodings e).templateCount at hmem
  unfold encodings at hmem
  split at hmem <;> simp_all

/-- The excerpt has the shape of the generated tables. -/
def thumbTables : ThumbDb where
  toDb := tables
  it := 192
  itTemplate := 201
  itNode := .enum .cond { symbol := .other, hasEncodedin := true, encodedin := 68 }
  it_lookup := fun opcode _ h => (lookup_it_iff opcode).mpr h
  it_narrow := fun opcode h => ((lookup_it_iff opcode).mp h).2
  it_wide := fun _ => Nat.zero_ne_add_one 191
  it_opcode := rfl
  it_mask := rfl
  it_hasAlias := rfl
  it_candidates := rfl
  it_iform := rfl
  it_arguments := rfl
  it_only := candidates_not_it
  it_aliases := fun _ => List.not_mem_nil

/-- A call at 16-bit instructions, with a record that holds a token in argument 0. -/
def callOf (halfwords : List (BitVec 16)) (token : Nat) : Call where
  address := addressOf halfwords
  length := 2 * halfwords.length
  stale := blank
  insn := (default : Insn).setArgument 0 ((default : Argument).put Cell.token token)

end Excerpt

open Excerpt in
/-- `IT EQ` and the `NOP` behind it, with EQ in the record. -/
theorem itBlock_it_nop :
    SeesArchitecture thumbTables (contextOf []) [] [callOf [0xbf08, 0xbf00] 1, callOf [0xbf00] 1] :=
  (itBlock_iff thumbTables (contextOf []) [callOf [0xbf08, 0xbf00] 1, callOf [0xbf00] 1] rfl rfl
    ⟨by decide, by decide, trivial⟩).mpr ⟨rfl, by decide, trivial⟩

open Excerpt in
/-- `IT EQ`, decoded into a clear record, and the `NOP` behind it. -/
theorem not_itBlock_it_nop :
    ¬∀ (d : ThumbDb) (ctx : Context) (calls : List Call), ctx.machineMode = .thumb →
      ctx.itblock.isIn = false → StreamDecodes d ctx calls → SeesArchitecture d ctx [] calls := by
  intro h
  have hsees := h thumbTables (contextOf []) [callOf [0xbf08, 0xbf00] 0, callOf [0xbf00] 0] rfl rfl
    ⟨by decide, by decide, trivial⟩
  exact absurd hsees.2.1 (by decide)

end Amed.AArch32
