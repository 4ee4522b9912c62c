import Mathlib.Algebra.Order.BigOperators.Group.List
import Mathlib.Algebra.Order.Group.Nat
import Mathlib.Data.Finset.Card
import Mathlib.Data.Finset.Range
import Amed.Library.Calls
import Amed.Generator.MostSpecific

/-!
# When the construction of a tree ends

The calls that `divide_tree` and `divide_cnsts` make on lists of nodes, and when they come to an
end.

## Implementation notes

`divide_tree_terminal`, `divide_conflicts`, `divide_hi_bits` and the loop of `divide_tree_using_if`
belong to the call of `divide_tree` they run in; a jump of `divide_cnsts` to its start is a call of
it. `divide_cnsts` hands its list back where the nodes have no constraint in common. It takes a
constraint again that it has used: only the bits of its mask are taken out of the node.
-/

namespace Amed.Generator

open BitFields Calls

/-! ## The calls -/

/-- A call on a list of nodes. -/
inductive Call
  | tree (nodes : List TreeNode)
  | cnsts (nodes : List TreeNode)

/-- A node still has bits of its constraints. -/
def constrained (nodes : List TreeNode) : Bool := nodes.any fun node => node.cmask ≠ 0

/-- The calls of `divide_tree_terminal`. -/
def terminalCalls : List TreeNode → List Call
  | [] => []
  | [_] => []
  | nodes =>
      if constrained nodes then [.cnsts nodes]
      else
        match nodes.mergeSort
            fun a b => decide (getBitCount b.entry.tmask ≤ getBitCount a.entry.tmask) with
        | [] => []
        | first :: next => [.tree [first], .tree next]

/-- The calls of `divide_tree_using_if`. -/
def ifCalls : Nat → List TreeNode → List Call
  | 0, _ => []
  | passes + 1, nodes =>
      if nodes.length < 2 then terminalCalls nodes
      else
        let mask := nodes.foldl (fun m node => m &&& node.mask) (BitVec.allOnes 64)
        match (List.range 64).find? fun bit => mask.getLsbD bit with
        | none => terminalCalls nodes
        | some bit =>
            let bitmask := (1 : BitVec 64) <<< bit
            match getBlessedByteFromMask bitmask with
            | none => []
            | some _ =>
                let set (node : TreeNode) := decide (node.entry.opcode &&& bitmask ≠ 0)
                let node1 := (nodes.filter set).map (.consume bitmask)
                let node0 := (nodes.filter fun node => !set node).map (.consume bitmask)
                if node0.isEmpty then ifCalls passes node1
                else if node1.isEmpty then ifCalls passes node0
                else [.tree node0, .tree node1]

/-- The calls of `divide_tree`. -/
def treeCalls (nodes : List TreeNode) : List Call :=
  let mask := getEffectiveMask nodes
  if mask = 0 then terminalCalls nodes
  else if getBitCount mask < 2 then ifCalls 65 nodes
  else
    match getBlessedByteFromMask mask with
    | none => ifCalls 65 nodes
    | some byte =>
        let value (node : TreeNode) := (node.entry.opcode &&& mask) >>> (8 * byte)
        let values := (nodes.map value).eraseDups
        if values.length < minSwitchCaseCount ∨ maxSwitchCaseCount < values.length then
          ifCalls 65 nodes
        else
          values.map fun v =>
            .tree ((nodes.filter fun node => value node = v).map (.consume mask))

/-- The calls of `divide_cnsts`. -/
def cnstsCalls (nodes : List TreeNode) : List Call :=
  match getGlobalConstraint nodes with
  | none => [.tree nodes]
  | some c =>
      let s := nodes.foldl Split.step ⟨c.mask, c.value, [], []⟩
      if s.ncnode.isEmpty then [.cnsts s.cnode]
      else (if s.cnode.isEmpty then [] else [.tree s.cnode]) ++ [.tree s.ncnode]

def Call.calls : Call → List Call
  | .tree nodes => treeCalls nodes
  | .cnsts nodes => cnstsCalls nodes

/-- The call gives a tree, with a way to divide lists and fuel for its own loop. -/
def Call.Done (divide : List TreeNode → Option Tree) (fuel : Nat) : Call → Prop
  | .tree nodes => (divide nodes).isSome = true
  | .cnsts nodes => (divideCnsts divide fuel nodes).isSome = true

/-! ## A division is done when its calls are -/

section Done

variable {divide : List TreeNode → Option Tree} {fuel : Nat}

/-- Two trees under a node. -/
theorem isSome_bind_map {α β γ : Type} (o : Option α) (o' : Option β) (f : α → β → γ) :
    (o.bind fun a => o'.map (f a)).isSome = true ↔ o.isSome = true ∧ o'.isSome = true := by
  cases o <;> simp

theorem divideTreeTerminal_isSome {nodes : List TreeNode} (h : nodes ≠ []) :
    (divideTreeTerminal divide fuel nodes).isSome = true ↔
      ∀ c ∈ terminalCalls nodes, c.Done divide fuel := by
  unfold divideTreeTerminal terminalCalls
  match nodes with
  | [] => exact absurd rfl h
  | [node] => simp
  | first :: second :: nodes =>
      change (if constrained (first :: second :: nodes) then _ else _ : Option Tree).isSome = true ↔
        _
      dsimp only
      split
      · simp [Call.Done]
      · unfold divideHiBits
        generalize hsorted : (first :: second :: nodes).mergeSort
          (fun a b => decide (getBitCount b.entry.tmask ≤ getBitCount a.entry.tmask)) = sorted
        cases sorted with
        | nil =>
            have hperm := List.mergeSort_perm (first :: second :: nodes)
              fun a b => decide (getBitCount b.entry.tmask ≤ getBitCount a.entry.tmask)
            rw [hsorted] at hperm
            cases hperm.nil_eq
        | cons a next =>
            dsimp only
            rw [isSome_bind_map]
            simp [Call.Done]

theorem divideCnsts_isSome (nodes : List TreeNode) :
    (divideCnsts divide (fuel + 1) nodes).isSome = true ↔
      ∀ c ∈ cnstsCalls nodes, c.Done divide fuel := by
  rw [divideCnsts, cnstsCalls]
  cases getGlobalConstraint nodes with
  | none => simp [Call.Done]
  | some c =>
      dsimp only
      generalize nodes.foldl Split.step ⟨c.mask, c.value, [], []⟩ = s
      cases s.ncnode.isEmpty with
      | true => simp [Call.Done]
      | false =>
          rw [if_neg Bool.false_ne_true, isSome_bind_map]
          cases s.cnode.isEmpty with
          | true => simp [Call.Done]
          | false => simp [Call.Done]

/-- The bits that all nodes still have. -/
def commonMask (nodes : List TreeNode) : BitVec 64 :=
  nodes.foldl (fun m node => m &&& node.mask) (BitVec.allOnes 64)

theorem getLsbD_foldl_and (nodes : List TreeNode) (m : BitVec 64) (i : Nat) :
    (nodes.foldl (fun m node => m &&& node.mask) m).getLsbD i = true ↔
      m.getLsbD i = true ∧ ∀ node ∈ nodes, node.mask.getLsbD i = true := by
  induction nodes generalizing m with
  | nil => simp
  | cons node nodes ih =>
      rw [List.foldl_cons, ih, List.forall_mem_cons, BitVec.getLsbD_and, Bool.and_eq_true,
        and_assoc]

/-- The common mask has the bits that all masks have. -/
theorem getLsbD_commonMask {nodes : List TreeNode} {i : Nat} (hi : i < 64) :
    (commonMask nodes).getLsbD i = true ↔ ∀ node ∈ nodes, node.mask.getLsbD i = true := by
  rw [commonMask, getLsbD_foldl_and, BitVec.getLsbD_allOnes, decide_eq_true hi]
  exact and_iff_right rfl

/-- Below a position no bit is common. -/
def ClearBelow (k : Nat) (nodes : List TreeNode) : Prop :=
  ∀ i < k, (commonMask nodes).getLsbD i = false

/-- The first common bit, taken out of nodes that all go the same way. -/
theorem clearBelow_consume {nodes : List TreeNode} {bit : Nat} {p : TreeNode → Bool}
    (hne : nodes ≠ []) (hbit : bit < 64)
    (hfirst : ∀ i < bit, (commonMask nodes).getLsbD i = false)
    (hall : ∀ node ∈ nodes, p node = true) :
    ClearBelow (bit + 1) ((nodes.filter p).map (.consume ((1 : BitVec 64) <<< bit))) := by
  intro i hi
  rw [List.filter_eq_self.mpr hall, ← Bool.not_eq_true, getLsbD_commonMask (by omega)]
  intro hset
  obtain hlt | rfl : i < bit ∨ i = bit := by omega
  · have hcommon := hfirst i hlt
    rw [← Bool.not_eq_true, getLsbD_commonMask (by omega)] at hcommon
    apply hcommon
    intro node hnode
    have hbits := hset _ (List.mem_map_of_mem hnode)
    rw [TreeNode.consume, BitVec.getLsbD_and, Bool.and_eq_true] at hbits
    exact hbits.1
  · obtain ⟨node, rest, rfl⟩ := List.exists_cons_of_ne_nil hne
    have hbits := hset _ (List.mem_map_of_mem List.mem_cons_self)
    rw [TreeNode.consume, BitVec.getLsbD_and, Bool.and_eq_true, BitVec.getLsbD_not] at hbits
    simp [hbit] at hbits

theorem divideTreeUsingIf_isSome (passes : Nat) {nodes : List TreeNode} {k : Nat}
    (hne : nodes ≠ []) (hk : k ≤ 64) (hpasses : 65 ≤ passes + k) (hclear : ClearBelow k nodes) :
    (divideTreeUsingIf divide fuel passes nodes).isSome = true ↔
      ∀ c ∈ ifCalls passes nodes, c.Done divide fuel := by
  induction passes generalizing nodes k with
  | zero => omega
  | succ passes ih =>
      rw [divideTreeUsingIf, ifCalls]
      split
      · exact divideTreeTerminal_isSome hne
      · have hmask : nodes.foldl (fun m node => m &&& node.mask) (BitVec.allOnes 64) =
            commonMask nodes := rfl
        rw [hmask]
        dsimp only
        cases hfind : (List.range 64).find? fun bit => (commonMask nodes).getLsbD bit with
        | none =>
            dsimp only
            exact divideTreeTerminal_isSome hne
        | some bit =>
            dsimp only
            obtain ⟨hset, hbit, hfirst⟩ := List.find?_range_eq_some.mp hfind
            rw [List.mem_range] at hbit
            have hbelow : ∀ i < bit, (commonMask nodes).getLsbD i = false := by
              intro i hi
              simpa using hfirst i hi
            have hle : k ≤ bit := by
              by_contra hlt
              rw [hclear bit (by omega)] at hset
              cases hset
            have hagain : ∀ p : TreeNode → Bool, (∀ node ∈ nodes, p node = true) →
                ((divideTreeUsingIf divide fuel passes
                    ((nodes.filter p).map (.consume ((1 : BitVec 64) <<< bit)))).isSome = true ↔
                  ∀ c ∈ ifCalls passes
                    ((nodes.filter p).map (.consume ((1 : BitVec 64) <<< bit))),
                    c.Done divide fuel) := by
              intro p hall
              refine ih ?_ (k := bit + 1) (by omega) (by omega)
                (clearBelow_consume hne hbit hbelow hall)
              rw [List.filter_eq_self.mpr hall, ne_eq, List.map_eq_nil_iff]
              exact hne
            cases getBlessedByteFromMask ((1 : BitVec 64) <<< bit) with
            | none => simp
            | some byte =>
                dsimp only
                split
                · rename_i hempty
                  apply hagain
                  intro node hnode
                  simpa using filter_isEmpty hempty node hnode
                · split
                  · rename_i hempty
                    apply hagain
                    intro node hnode
                    simpa using filter_isEmpty hempty node hnode
                  · rw [isSome_bind_map]
                    simp [Call.Done]

theorem mapM_isSome {α β : Type} (f : α → Option β) (xs : List α) :
    (xs.mapM f).isSome = true ↔ ∀ x ∈ xs, (f x).isSome = true := by
  induction xs with
  | nil => simp
  | cons x xs ih =>
      rw [List.mapM_cons, List.forall_mem_cons, ← ih]
      cases f x <;> cases xs.mapM f <;> simp

end Done

/-- A division is done when each of the divisions it calls is. -/
theorem divideTree_isSome (fuel : Nat) {nodes : List TreeNode} (hne : nodes ≠ []) :
    (divideTree (fuel + 1) nodes).isSome = true ↔
      ∀ c ∈ treeCalls nodes, c.Done (divideTree fuel) fuel := by
  have hif : (divideTreeUsingIf (divideTree fuel) fuel 65 nodes).isSome = true ↔
      ∀ c ∈ ifCalls 65 nodes, c.Done (divideTree fuel) fuel :=
    divideTreeUsingIf_isSome 65 hne (Nat.zero_le 64) (Nat.le_refl 65) fun i hi =>
      absurd hi (Nat.not_lt_zero i)
  rw [divideTree, if_neg (by simpa using hne), divideTreeUsingSwitch, treeCalls]
  by_cases hmask : getEffectiveMask nodes = 0
  · simp only [if_pos hmask]
    exact divideTreeTerminal_isSome hne
  by_cases hcount : getBitCount (getEffectiveMask nodes) < 2
  · simp only [if_neg hmask, if_pos hcount]
    exact hif
  simp only [if_neg hmask, if_neg hcount]
  cases getBlessedByteFromMask (getEffectiveMask nodes) with
  | none => exact hif
  | some byte =>
      dsimp only
      by_cases hvalues : (nodes.map fun node =>
          (node.entry.opcode &&& getEffectiveMask nodes) >>> (8 * byte)).eraseDups.length <
            minSwitchCaseCount ∨
          maxSwitchCaseCount < (nodes.map fun node =>
            (node.entry.opcode &&& getEffectiveMask nodes) >>> (8 * byte)).eraseDups.length
      · simp only [if_pos hvalues]
        exact hif
      · simp only [if_neg hvalues]
        rw [Option.isSome_map, mapM_isSome]
        simp [Call.Done]

theorem divideTree_nil (fuel : Nat) : divideTree fuel [] = none := by
  cases fuel <;> rfl

/-! ## The weight of a list -/

/-- The positions of the bits that are set. -/
def ones (x : BitVec 64) : Finset Nat := (Finset.range 64).filter fun i => x.getLsbD i = true

theorem mem_ones {x : BitVec 64} {i : Nat} : i ∈ ones x ↔ x.getLsbD i = true := by
  rw [ones, Finset.mem_filter, Finset.mem_range]
  exact and_iff_right_of_imp BitVec.lt_of_getLsbD

theorem ones_subset {a b : BitVec 64} : ones a ⊆ ones b ↔ Inside a b := by
  simp only [inside_iff, Finset.subset_iff, mem_ones]

theorem ones_ssubset {a b : BitVec 64} (h : Inside a b) (hne : a ≠ b) : ones a ⊂ ones b := by
  refine (Finset.ssubset_iff_subset_ne).mpr ⟨ones_subset.mpr h, fun heq => hne ?_⟩
  apply BitVec.eq_of_getLsbD_eq
  intro i _
  rw [Bool.eq_iff_iff, ← mem_ones, ← mem_ones, heq]

/-- Bits that are taken out. -/
theorem and_not_ne {x used : BitVec 64} (h : x &&& used ≠ 0) : x &&& ~~~used ≠ x := by
  intro heq
  apply h
  rw [← heq, BitVec.and_assoc, BitVec.and_comm _ used, BitVec.and_not_self]
  exact BitVec.and_zero

/-- What is left of a node: itself and the bits of its masks. -/
def TreeNode.weight (node : TreeNode) : Nat := 1 + (ones node.mask).card + (ones node.cmask).card

/-- What is left of a list of nodes. -/
def weight (nodes : List TreeNode) : Nat := (nodes.map TreeNode.weight).sum

theorem TreeNode.weight_pos (node : TreeNode) : 0 < node.weight := by
  rw [TreeNode.weight]
  omega

theorem TreeNode.weight_consume_le (used : BitVec 64) (node : TreeNode) :
    (node.consume used).weight ≤ node.weight := by
  have hle := Finset.card_le_card (ones_subset.mpr (inside_and_left node.mask (~~~used)))
  simp only [TreeNode.weight, TreeNode.consume]
  omega

theorem TreeNode.weight_consume_lt {used : BitVec 64} {node : TreeNode} (hused : used ≠ 0)
    (h : Inside used node.mask) : (node.consume used).weight < node.weight := by
  have hmask : node.mask &&& used ≠ 0 := by
    rw [BitVec.and_comm, show used &&& node.mask = used from h]
    exact hused
  have hlt := Finset.card_lt_card
    (ones_ssubset (inside_and_left node.mask (~~~used)) (and_not_ne hmask))
  simp only [TreeNode.weight, TreeNode.consume]
  omega

theorem weight_sublist {part nodes : List TreeNode} (h : part.Sublist nodes) :
    weight part ≤ weight nodes := (h.map _).sum_le_sum fun _ _ => Nat.zero_le _

theorem weight_filter_lt {nodes : List TreeNode} {p : TreeNode → Bool}
    (h : ∃ node ∈ nodes, p node = false) : weight (nodes.filter p) < weight nodes := by
  induction nodes with
  | nil =>
      obtain ⟨node, hnode, -⟩ := h
      cases hnode
  | cons node nodes ih =>
      have hle := weight_sublist (nodes.filter_sublist (p := p))
      have hpos := node.weight_pos
      simp only [weight] at hle ih ⊢
      rw [List.filter_cons]
      split
      · rename_i hp
        have hrest : ∃ node ∈ nodes, p node = false := by
          obtain ⟨n, hn, hpn⟩ := h
          rcases List.mem_cons.mp hn with rfl | hn
          · rw [hp] at hpn
            cases hpn
          · exact ⟨n, hn, hpn⟩
        have hlt := ih hrest
        simp only [List.map_cons, List.sum_cons]
        omega
      · simp only [List.map_cons, List.sum_cons]
        omega

theorem weight_map_le {f : TreeNode → TreeNode} {nodes : List TreeNode}
    (h : ∀ node ∈ nodes, (f node).weight ≤ node.weight) : weight (nodes.map f) ≤ weight nodes := by
  rw [weight, List.map_map]
  exact List.sum_le_sum h

theorem weight_map_lt {f : TreeNode → TreeNode} {nodes : List TreeNode}
    (h : ∀ node ∈ nodes, (f node).weight ≤ node.weight)
    (hlt : ∃ node ∈ nodes, (f node).weight < node.weight) :
    weight (nodes.map f) < weight nodes := by
  rw [weight, List.map_map]
  exact List.sum_lt_sum _ _ h hlt

theorem weight_consume_le (used : BitVec 64) (nodes : List TreeNode) :
    weight (nodes.map (.consume used)) ≤ weight nodes :=
  weight_map_le fun node _ => node.weight_consume_le used

/-! ## What a call hands on -/

theorem constrained_eq {nodes nodes' : List TreeNode}
    (h : nodes'.map TreeNode.cmask = nodes.map TreeNode.cmask) :
    constrained nodes' = constrained nodes := by
  have hany : ∀ ns : List TreeNode, constrained ns = (ns.map TreeNode.cmask).any (· ≠ 0) := by
    intro ns
    rw [List.any_map]
    rfl
  rw [hany, hany, h]

theorem weight_perm {nodes nodes' : List TreeNode} (h : nodes'.Perm nodes) :
    weight nodes' = weight nodes := (h.map _).sum_eq

theorem weight_pos {nodes : List TreeNode} (h : nodes ≠ []) : 0 < weight nodes := by
  obtain ⟨node, rest, rfl⟩ := List.exists_cons_of_ne_nil h
  have hpos := node.weight_pos
  rw [weight, List.map_cons, List.sum_cons]
  omega

/-- The call is one of `divide_tree` on fewer or smaller nodes. -/
def Shrinks (nodes : List TreeNode) (c : Call) : Prop :=
  ∃ part, c = .tree part ∧ part ≠ [] ∧ weight part < weight nodes

theorem Shrinks.of_le {nodes nodes' : List TreeNode} {c : Call} (h : Shrinks nodes' c)
    (hle : weight nodes' ≤ weight nodes) : Shrinks nodes c := by
  obtain ⟨part, rfl, hne, hlt⟩ := h
  exact ⟨part, rfl, hne, Nat.lt_of_lt_of_le hlt hle⟩

/-- `divide_tree_terminal` hands the whole list to `divide_cnsts`, or its parts to `divide_tree`. -/
theorem terminalCalls_cases {nodes : List TreeNode} {c : Call} (h : c ∈ terminalCalls nodes) :
    2 ≤ nodes.length ∧ (constrained nodes = true ∧ c = .cnsts nodes ∨ Shrinks nodes c) := by
  unfold terminalCalls at h
  match nodes with
  | [] => cases h
  | [_] => cases h
  | first :: second :: nodes =>
      refine ⟨by simp, ?_⟩
      dsimp only at h
      split at h
      · rename_i hconstrained
        exact Or.inl ⟨hconstrained, List.mem_singleton.mp h⟩
      · right
        generalize hsorted : (first :: second :: nodes).mergeSort
          (fun a b => decide (getBitCount b.entry.tmask ≤ getBitCount a.entry.tmask)) = sorted at h
        have hperm : sorted.Perm (first :: second :: nodes) := by
          rw [← hsorted]
          exact List.mergeSort_perm _ _
        match sorted, hperm, h with
        | [_], hperm, _ => cases hperm.length_eq
        | a :: b :: next, hperm, h =>
            have hsum : weight (a :: b :: next) = weight [a] + weight (b :: next) := by
              simp [weight]
            have ha := weight_pos (List.cons_ne_nil a [])
            have hb := weight_pos (List.cons_ne_nil b next)
            have heq := weight_perm hperm
            rcases List.mem_cons.mp h with rfl | h
            · exact ⟨[a], rfl, List.cons_ne_nil _ _, by omega⟩
            · rw [List.mem_singleton.mp h]
              exact ⟨b :: next, rfl, List.cons_ne_nil _ _, by omega⟩

/-- The list with bits taken out of the masks that all nodes share or agree in. -/
structure Narrowed (nodes nodes' : List TreeNode) : Prop where
  cmask : nodes'.map TreeNode.cmask = nodes.map TreeNode.cmask
  weight_le : weight nodes' ≤ weight nodes

theorem Narrowed.trans {nodes nodes' nodes'' : List TreeNode} (h : Narrowed nodes nodes')
    (h' : Narrowed nodes' nodes'') : Narrowed nodes nodes'' :=
  ⟨h'.cmask.trans h.cmask, Nat.le_trans h'.weight_le h.weight_le⟩

theorem narrowed_consume (used : BitVec 64) (nodes : List TreeNode) :
    Narrowed nodes (nodes.map (.consume used)) where
  cmask := by
    rw [List.map_map]
    rfl
  weight_le := weight_consume_le used nodes

theorem exists_of_not_isEmpty {nodes : List TreeNode} {p : TreeNode → Bool} {used : BitVec 64}
    (h : ¬((nodes.filter p).map (TreeNode.consume used)).isEmpty = true) :
    ∃ node ∈ nodes, p node = true := by
  rw [List.isEmpty_iff, List.map_eq_nil_iff, List.filter_eq_nil_iff] at h
  simpa using h

/-- One of two sides that both have nodes. -/
theorem shrinks_filter {nodes : List TreeNode} {p : TreeNode → Bool} (used : BitVec 64)
    (hin : ∃ node ∈ nodes, p node = true) (hout : ∃ node ∈ nodes, p node = false) :
    Shrinks nodes (.tree ((nodes.filter p).map (.consume used))) := by
  refine ⟨_, rfl, ?_, Nat.lt_of_le_of_lt (weight_consume_le used _) (weight_filter_lt hout)⟩
  obtain ⟨node, hnode, hp⟩ := hin
  rw [ne_eq, List.map_eq_nil_iff]
  exact List.ne_nil_of_mem (List.mem_filter.mpr ⟨hnode, hp⟩)

theorem ifCalls_cases {passes : Nat} {nodes : List TreeNode} {c : Call}
    (h : c ∈ ifCalls passes nodes) :
    (∃ nodes', Narrowed nodes nodes' ∧ (2 ≤ nodes'.length → commonMask nodes' = 0) ∧
      c ∈ terminalCalls nodes') ∨ Shrinks nodes c := by
  induction passes generalizing nodes with
  | zero => cases h
  | succ passes ih =>
      rw [ifCalls] at h
      have hmask : nodes.foldl (fun m node => m &&& node.mask) (BitVec.allOnes 64) =
          commonMask nodes := rfl
      rw [hmask] at h
      dsimp only at h
      split at h
      · exact Or.inl ⟨nodes, ⟨rfl, Nat.le_refl _⟩, by omega, h⟩
      split at h
      · rename_i hnone
        refine Or.inl ⟨nodes, ⟨rfl, Nat.le_refl _⟩, fun _ => ?_, h⟩
        apply BitVec.eq_of_getLsbD_eq
        intro i hi
        rw [getLsbD_zero]
        simpa using List.find?_eq_none.mp hnone i (List.mem_range.mpr hi)
      split at h
      · cases h
      rename_i bit _ _ byte _
      have hagain : ∀ p : TreeNode → Bool, (∀ node ∈ nodes, p node = true) →
          c ∈ ifCalls passes ((nodes.filter p).map (.consume ((1 : BitVec 64) <<< bit))) →
          (∃ nodes', Narrowed nodes nodes' ∧ (2 ≤ nodes'.length → commonMask nodes' = 0) ∧
            c ∈ terminalCalls nodes') ∨ Shrinks nodes c := by
        intro p hall hc
        rw [List.filter_eq_self.mpr hall] at hc
        have hnarrow := narrowed_consume ((1 : BitVec 64) <<< bit) nodes
        rcases ih hc with ⟨nodes', hnodes', hzero, hc⟩ | hc
        · exact Or.inl ⟨nodes', hnarrow.trans hnodes', hzero, hc⟩
        · exact Or.inr (hc.of_le hnarrow.weight_le)
      split at h
      · rename_i hempty
        refine hagain _ (fun node hnode => ?_) h
        simpa using filter_isEmpty hempty node hnode
      split at h
      · rename_i hempty
        refine hagain _ (fun node hnode => ?_) h
        simpa using filter_isEmpty hempty node hnode
      · rename_i hempty0 hempty1
        right
        obtain ⟨node0, hnode0, hclear⟩ := exists_of_not_isEmpty hempty0
        obtain ⟨node1, hnode1, hset⟩ := exists_of_not_isEmpty hempty1
        rcases List.mem_cons.mp h with rfl | h
        · exact shrinks_filter _ ⟨node0, hnode0, hclear⟩ ⟨node1, hnode1, by simpa using hset⟩
        · rw [List.mem_singleton.mp h]
          exact shrinks_filter _ ⟨node1, hnode1, hset⟩ ⟨node0, hnode0, by simpa using hclear⟩

/-- A list that shares no bits has no effective ones. -/
theorem getEffectiveMask_of_commonMask {nodes : List TreeNode} (h : commonMask nodes = 0) :
    getEffectiveMask nodes = 0 := by
  apply BitVec.eq_of_getLsbD_eq
  intro i hi
  rw [getLsbD_zero, ← Bool.not_eq_true]
  intro hbit
  have hcommon : (commonMask nodes).getLsbD i = true :=
    (getLsbD_commonMask hi).mpr fun node hnode =>
      inside_iff.mp (getEffectiveMask_inside hnode) i hbit
  rw [h, getLsbD_zero] at hcommon
  cases hcommon

/-- The list that `divide_tree` hands to `divide_cnsts`. -/
structure Hands (nodes : List TreeNode) (nodes' : List TreeNode) : Prop where
  length : 2 ≤ nodes'.length
  constrained : constrained nodes' = true
  effective : getEffectiveMask nodes' = 0
  narrowed : Narrowed nodes nodes'

theorem treeCalls_cases {nodes : List TreeNode} {c : Call} (h : c ∈ treeCalls nodes) :
    (∃ nodes', Hands nodes nodes' ∧ c = .cnsts nodes') ∨ Shrinks nodes c := by
  have hif : c ∈ ifCalls 65 nodes →
      (∃ nodes', Hands nodes nodes' ∧ c = .cnsts nodes') ∨ Shrinks nodes c := by
    intro hc
    rcases ifCalls_cases hc with ⟨nodes', hnarrow, hzero, hc⟩ | hc
    · obtain ⟨hlength, ⟨hconstrained, rfl⟩ | hc⟩ := terminalCalls_cases hc
      · exact Or.inl ⟨nodes', ⟨hlength, hconstrained,
          getEffectiveMask_of_commonMask (hzero hlength), hnarrow⟩, rfl⟩
      · exact Or.inr (hc.of_le hnarrow.weight_le)
    · exact Or.inr hc
  rw [treeCalls] at h
  dsimp only at h
  split at h
  · rename_i hmask
    obtain ⟨hlength, ⟨hconstrained, rfl⟩ | hc⟩ := terminalCalls_cases h
    · exact Or.inl ⟨nodes, ⟨hlength, hconstrained, hmask, ⟨rfl, Nat.le_refl _⟩⟩, rfl⟩
    · exact Or.inr hc
  rename_i hmask
  split at h
  · exact hif h
  split at h
  · exact hif h
  split at h
  · exact hif h
  · obtain ⟨v, hv, rfl⟩ := List.mem_map.mp h
    obtain ⟨node, hnode, hvalue⟩ := List.mem_map.mp (List.mem_eraseDups.mp hv)
    right
    refine ⟨_, rfl, ?_, ?_⟩
    · rw [ne_eq, List.map_eq_nil_iff]
      exact List.ne_nil_of_mem (List.mem_filter.mpr ⟨hnode, decide_eq_true hvalue⟩)
    · have hconsume : ∀ n ∈ nodes, (n.consume (getEffectiveMask nodes)).weight < n.weight :=
        fun n hn => n.weight_consume_lt hmask (getEffectiveMask_inside hn)
      refine Nat.lt_of_lt_of_le (weight_map_lt (fun n _ => n.weight_consume_le _) ?_)
        (weight_sublist (List.filter_sublist))
      exact ⟨node, List.mem_filter.mpr ⟨hnode, decide_eq_true hvalue⟩, hconsume node hnode⟩

/-! ## The lists of `divide_cnsts` -/

/-- The constraint is the one of the node. -/
def hasConstraint (c : Constraint) (node : TreeNode) : Bool :=
  getNodeConstraint node c.mask = some c

/-- The bits the node still has decide the constraint; the value that fails it, or another. -/
def fails (c : Constraint) (node : TreeNode) : Bool :=
  node.mask &&& c.mask = c.mask ∧ node.entry.opcode &&& c.mask = c.value

def meets (c : Constraint) (node : TreeNode) : Bool :=
  node.mask &&& c.mask = c.mask ∧ node.entry.opcode &&& c.mask ≠ c.value

/-- The node without the bits of the constraint it has. -/
def spend (c : Constraint) (node : TreeNode) : TreeNode :=
  if hasConstraint c node then { node with cmask := node.cmask &&& ~~~c.mask } else node

def cnodeOf (c : Constraint) (nodes : List TreeNode) : List TreeNode :=
  (nodes.filter fun node => hasConstraint c node || !fails c node).map (spend c)

def ncnodeOf (c : Constraint) (nodes : List TreeNode) : List TreeNode :=
  nodes.filter fun node => !hasConstraint c node && !meets c node

theorem Split.place_eq (c : Constraint) (cnode ncnode : List TreeNode) {node : TreeNode}
    (h : hasConstraint c node = false) :
    Split.place ⟨c.mask, c.value, cnode, ncnode⟩ node =
      ⟨c.mask, c.value, cnode ++ cnodeOf c [node], ncnode ++ ncnodeOf c [node]⟩ := by
  rw [Split.place]
  dsimp only
  split
  · rename_i hmask
    split
    · rename_i hvalue
      simp [cnodeOf, ncnodeOf, fails, meets, h, hmask, hvalue]
    · rename_i hvalue
      simp [cnodeOf, ncnodeOf, fails, meets, spend, h, hmask, hvalue]
  · rename_i hmask
    simp [cnodeOf, ncnodeOf, fails, meets, spend, h, hmask]

theorem Split.step_eq {c : Constraint} (hzero : c.mask = 0 → c.value = 0)
    (cnode ncnode : List TreeNode) (node : TreeNode) :
    Split.step ⟨c.mask, c.value, cnode, ncnode⟩ node =
      ⟨c.mask, c.value, cnode ++ cnodeOf c [node], ncnode ++ ncnodeOf c [node]⟩ := by
  rw [Split.step]
  dsimp only
  cases hnode : getNodeConstraint node c.mask with
  | none =>
      apply Split.place_eq
      simp [hasConstraint, hnode]
  | some c' =>
      have hstart := Split.start_eq (s := ⟨c.mask, c.value, cnode, ncnode⟩) hnode hzero
      dsimp only at hstart ⊢
      rw [hstart]
      dsimp only
      split
      · rename_i hequal
        have hc : c' = c := by
          cases c
          cases c'
          simp only at hequal
          rw [hequal.1, hequal.2]
        subst hc
        simp [cnodeOf, ncnodeOf, spend, hasConstraint, hnode]
      · rename_i hother
        apply Split.place_eq
        simp only [hasConstraint, hnode, decide_eq_false_iff_not, Option.some.injEq]
        rintro rfl
        exact hother ⟨rfl, rfl⟩

theorem foldl_split_eq {c : Constraint} (hzero : c.mask = 0 → c.value = 0)
    (nodes cnode ncnode : List TreeNode) :
    nodes.foldl Split.step ⟨c.mask, c.value, cnode, ncnode⟩ =
      ⟨c.mask, c.value, cnode ++ cnodeOf c nodes, ncnode ++ ncnodeOf c nodes⟩ := by
  induction nodes generalizing cnode ncnode with
  | nil => simp [cnodeOf, ncnodeOf]
  | cons node nodes ih =>
      rw [List.foldl_cons, Split.step_eq hzero, ih]
      have hc : cnodeOf c (node :: nodes) = cnodeOf c [node] ++ cnodeOf c nodes := by
        rw [cnodeOf, cnodeOf, cnodeOf, ← List.map_append, ← List.filter_append]
        rfl
      have hnc : ncnodeOf c (node :: nodes) = ncnodeOf c [node] ++ ncnodeOf c nodes := by
        rw [ncnodeOf, ncnodeOf, ncnodeOf, ← List.filter_append]
        rfl
      rw [hc, hnc, List.append_assoc, List.append_assoc]

theorem cnstsCalls_none {nodes : List TreeNode} (h : getGlobalConstraint nodes = none) :
    cnstsCalls nodes = [.tree nodes] := by
  rw [cnstsCalls, h]

theorem cnstsCalls_some {nodes : List TreeNode} {c : Constraint}
    (h : getGlobalConstraint nodes = some c) :
    cnstsCalls nodes =
      if (ncnodeOf c nodes).isEmpty then [.cnsts (cnodeOf c nodes)]
      else (if (cnodeOf c nodes).isEmpty then [] else [.tree (cnodeOf c nodes)]) ++
        [.tree (ncnodeOf c nodes)] := by
  obtain ⟨node, -, hmem⟩ := getGlobalConstraint_mem h
  rw [cnstsCalls, h]
  simp only [foldl_split_eq (Constraint.value_eq_zero hmem), List.nil_append]

theorem getGlobalConstraint_of_not_constrained {nodes : List TreeNode}
    (h : constrained nodes = false) : getGlobalConstraint nodes = none := by
  have hnil : (nodes.map TreeNode.cmask).filter (· ≠ 0) = [] := by
    rw [List.filter_eq_nil_iff]
    intro cmask hcmask
    obtain ⟨node, hnode, rfl⟩ := List.mem_map.mp hcmask
    exact List.any_eq_false.mp h node hnode
  rw [getGlobalConstraint, hnil]

/-- The node that the constraint was found in has it. -/
theorem getGlobalConstraint_has {nodes : List TreeNode} {c : Constraint}
    (h : getGlobalConstraint nodes = some c) : ∃ node ∈ nodes, hasConstraint c node = true := by
  unfold getGlobalConstraint at h
  split at h
  · cases h
  · rename_i cmask cmasks _
    obtain ⟨node, hnode, hc⟩ := List.exists_of_findSome?_eq_some h
    refine ⟨node, hnode, decide_eq_true ?_⟩
    generalize (if cmasks.foldl (· &&& ·) cmask = 0 then cmasks.getLastD cmask
      else cmasks.foldl (· &&& ·) cmask) = gmask at hc
    have hinside := (getNodeConstraint_eq_some hc).2
    unfold getNodeConstraint at hc ⊢
    split at hc
    · cases hc
    · rename_i hcmask
      rw [if_neg hcmask]
      obtain ⟨-, before, after, hcnsts, hbefore⟩ := List.find?_eq_some_iff_append.mp hc
      refine List.find?_eq_some_iff_append.mpr ⟨by simp, before, after, hcnsts, fun c' hc' => ?_⟩
      -- an earlier constraint within this one was within the common mask before
      have hout := hbefore c' hc'
      simp only [Bool.not_eq_true', decide_eq_false_iff_not] at hout ⊢
      intro hin
      apply hout
      rw [BitVec.and_comm]
      exact Inside.trans (show Inside c'.mask c.mask by rw [Inside, BitVec.and_comm]; exact hin)
        hinside

/-- The node loses bits of the constraint, or stays off the list that goes on with it. -/
def moves (c : Constraint) (node : TreeNode) : Bool :=
  if hasConstraint c node then node.cmask &&& c.mask ≠ 0 else fails c node

/-- A division by a constraint moves a node. -/
def Productive (nodes : List TreeNode) : Prop :=
  constrained nodes = true →
    ∃ c, getGlobalConstraint nodes = some c ∧ ∃ node ∈ nodes, moves c node = true

theorem weight_spend_le (c : Constraint) (node : TreeNode) :
    (spend c node).weight ≤ node.weight := by
  rw [spend]
  split
  · have hle := Finset.card_le_card (ones_subset.mpr (inside_and_left node.cmask (~~~c.mask)))
    simp only [TreeNode.weight]
    omega
  · exact Nat.le_refl _

theorem weight_spend_lt {c : Constraint} {node : TreeNode} (h : hasConstraint c node = true)
    (hbits : node.cmask &&& c.mask ≠ 0) : (spend c node).weight < node.weight := by
  have hlt := Finset.card_lt_card
    (ones_ssubset (inside_and_left node.cmask (~~~c.mask)) (and_not_ne hbits))
  rw [spend, if_pos h]
  simp only [TreeNode.weight]
  omega

theorem weight_ncnodeOf_lt {nodes : List TreeNode} {c : Constraint}
    (h : getGlobalConstraint nodes = some c) : weight (ncnodeOf c nodes) < weight nodes := by
  obtain ⟨node, hnode, hhas⟩ := getGlobalConstraint_has h
  exact weight_filter_lt ⟨node, hnode, by simp [hhas]⟩

/-- A list that loses an entry or a constrained bit gets lighter. -/
theorem weight_cnodeOf_lt {nodes : List TreeNode} {c : Constraint}
    (h : ∃ node ∈ nodes, moves c node = true) : weight (cnodeOf c nodes) < weight nodes := by
  obtain ⟨node, hnode, hmoves⟩ := h
  rw [moves] at hmoves
  split at hmoves
  · rename_i hhas
    refine Nat.lt_of_lt_of_le (weight_map_lt (fun n _ => weight_spend_le c n) ?_)
      (weight_sublist List.filter_sublist)
    exact ⟨node, List.mem_filter.mpr ⟨hnode, by simp [hhas]⟩,
      weight_spend_lt hhas (of_decide_eq_true hmoves)⟩
  · rename_i hhas
    refine Nat.lt_of_le_of_lt (weight_map_le fun n _ => weight_spend_le c n) ?_
    exact weight_filter_lt ⟨node, hnode, by simp [hhas, hmoves]⟩

/-- Where no node moves the list stays as it is. -/
theorem cnodeOf_eq {nodes : List TreeNode} {c : Constraint}
    (h : ∀ node ∈ nodes, moves c node = false) : cnodeOf c nodes = nodes := by
  have hstay : ∀ node ∈ nodes, (hasConstraint c node || !fails c node) = true ∧
      spend c node = node := by
    intro node hnode
    have hmoves := h node hnode
    rw [moves] at hmoves
    rw [spend]
    split at hmoves
    · rename_i hhas
      rw [if_pos hhas, hhas]
      refine ⟨rfl, ?_⟩
      rw [decide_eq_false_iff_not, not_not] at hmoves
      have hkeep : node.cmask &&& ~~~c.mask = node.cmask := by
        apply BitVec.eq_of_getLsbD_eq
        intro i hi
        have hbit := congrArg (fun x => BitVec.getLsbD x i) hmoves
        simp only [BitVec.getLsbD_and, getLsbD_zero] at hbit
        rw [BitVec.getLsbD_and, BitVec.getLsbD_not, decide_eq_true hi, Bool.true_and]
        cases hset : node.cmask.getLsbD i with
        | false => rfl
        | true =>
            rw [hset, Bool.true_and] at hbit
            rw [hbit]
            rfl
      rw [hkeep]
    · rename_i hhas
      rw [if_neg hhas, hmoves]
      simp
  rw [cnodeOf, List.filter_eq_self.mpr fun node hnode => (hstay node hnode).1]
  calc nodes.map (spend c) = nodes.map id :=
        List.map_congr_left fun node hnode => (hstay node hnode).2
    _ = nodes := List.map_id nodes

/-- Where no node stays off, all nodes go on. -/
theorem cnodeOf_of_ncnodeOf {nodes : List TreeNode} {c : Constraint} (h : ncnodeOf c nodes = []) :
    cnodeOf c nodes = nodes.map (spend c) := by
  rw [cnodeOf, List.filter_eq_self.mpr]
  intro node hnode
  have hout := List.filter_eq_nil_iff.mp h node hnode
  cases hhas : hasConstraint c node with
  | true => rfl
  | false =>
      simp [hhas, meets, fails] at hout ⊢
      exact Or.inr hout.2

theorem getEffectiveMask_spend (c : Constraint) (nodes : List TreeNode) :
    getEffectiveMask (nodes.map (spend c)) = getEffectiveMask nodes := by
  have hstep : ∀ s node, effectiveStep s (spend c node) = effectiveStep s node := by
    intro s node
    rw [spend]
    split <;> rfl
  simp only [getEffectiveMask, List.foldl_map, hstep]

/-! ## The calls that are reached -/

/-- What holds of a list when its call is made. -/
def Call.Sound : Call → Prop
  | .tree nodes => nodes ≠ []
  | .cnsts nodes => 2 ≤ nodes.length ∧ getEffectiveMask nodes = 0

theorem treeCalls_sound {nodes : List TreeNode} {c : Call} (h : c ∈ treeCalls nodes) : c.Sound := by
  rcases treeCalls_cases h with ⟨nodes', hnodes', rfl⟩ | ⟨part, rfl, hne, -⟩
  · exact ⟨hnodes'.length, hnodes'.effective⟩
  · exact hne

theorem cnstsCalls_sound {nodes : List TreeNode} (hlength : 2 ≤ nodes.length)
    (hmask : getEffectiveMask nodes = 0) {c : Call} (h : c ∈ cnstsCalls nodes) : c.Sound := by
  cases hglobal : getGlobalConstraint nodes with
  | none =>
      rw [cnstsCalls_none hglobal] at h
      rw [List.mem_singleton.mp h]
      exact List.ne_nil_of_length_pos (by omega)
  | some k =>
      rw [cnstsCalls_some hglobal] at h
      split at h
      · rename_i hempty
        rw [List.mem_singleton.mp h, cnodeOf_of_ncnodeOf (List.isEmpty_iff.mp hempty)]
        refine ⟨?_, ?_⟩
        · rw [List.length_map]
          exact hlength
        · rw [getEffectiveMask_spend, hmask]
      · rename_i hne
        rcases List.mem_append.mp h with h | h
        · split at h
          · cases h
          · rename_i hcne
            rw [List.mem_singleton.mp h]
            exact mt List.isEmpty_iff.mpr hcne
        · rw [List.mem_singleton.mp h]
          exact mt List.isEmpty_iff.mpr hne

theorem Call.Sound.of_mem {c c' : Call} (h : c.Sound) (hc : c' ∈ c.calls) : c'.Sound := by
  cases c with
  | tree nodes => exact treeCalls_sound hc
  | cnsts nodes => exact cnstsCalls_sound h.1 h.2 hc

theorem Call.Sound.of_reaches {root c : Call} (h : root.Sound) (hc : Reaches Call.calls root c) :
    c.Sound := by
  induction hc with
  | refl => exact h
  | tail _ hcall ih => exact ih.of_mem hcall

/-- The size of the problem a call has to solve. -/
def Call.rank : Call → Nat
  | .tree nodes => 2 * weight nodes + if constrained nodes then 1 else 0
  | .cnsts nodes => 2 * weight nodes + if constrained nodes then 0 else 1

theorem rank_tree_lt {part nodes : List TreeNode} {k : Nat} (h : weight part < weight nodes)
    (hk : 2 * weight nodes ≤ k) : (Call.tree part).rank < k := by
  rw [Call.rank]
  split <;> omega

/-- Every division calls divisions of a lower rank. -/
theorem treeCalls_rank {nodes : List TreeNode} {c : Call} (h : c ∈ treeCalls nodes) :
    c.rank < (Call.tree nodes).rank := by
  rcases treeCalls_cases h with ⟨nodes', hnodes', rfl⟩ | ⟨part, rfl, -, hlt⟩
  · have hconstrained : constrained nodes = true := by
      rw [← constrained_eq hnodes'.narrowed.cmask]
      exact hnodes'.constrained
    have hle := hnodes'.narrowed.weight_le
    rw [Call.rank, Call.rank, if_pos hnodes'.constrained, if_pos hconstrained]
    omega
  · exact rank_tree_lt hlt (Nat.le_add_right _ _)

theorem cnstsCalls_rank {nodes : List TreeNode} (hproductive : Productive nodes) {c : Call}
    (h : c ∈ cnstsCalls nodes) : c.rank < (Call.cnsts nodes).rank := by
  cases hconstrained : constrained nodes with
  | false =>
      rw [cnstsCalls_none (getGlobalConstraint_of_not_constrained hconstrained)] at h
      rw [List.mem_singleton.mp h, Call.rank, Call.rank, hconstrained]
      simp
  | true =>
      obtain ⟨k, hglobal, hmoves⟩ := hproductive hconstrained
      have hcnode := weight_cnodeOf_lt hmoves
      have hncnode := weight_ncnodeOf_lt hglobal
      have hbound : 2 * weight nodes ≤ (Call.cnsts nodes).rank := Nat.le_add_right _ _
      rw [cnstsCalls_some hglobal] at h
      split at h
      · rw [List.mem_singleton.mp h]
        refine Nat.lt_of_lt_of_le ?_ hbound
        rw [Call.rank]
        split <;> omega
      · rcases List.mem_append.mp h with h | h
        · split at h
          · cases h
          · rw [List.mem_singleton.mp h]
            exact rank_tree_lt hcnode hbound
        · rw [List.mem_singleton.mp h]
          exact rank_tree_lt hncnode hbound

theorem treeCalls_terminal {nodes : List TreeNode} (hlength : 2 ≤ nodes.length)
    (hmask : getEffectiveMask nodes = 0) (hconstrained : constrained nodes = true) :
    treeCalls nodes = [.cnsts nodes] := by
  rw [treeCalls]
  dsimp only
  rw [if_pos hmask]
  match nodes with
  | [] => simp at hlength
  | [_] => simp at hlength
  | first :: second :: nodes => simp [terminalCalls, hconstrained]

/-- Where no constraint moves a node, `divide_cnsts` and `divide_tree` hand the list back and
forth. -/
theorem returns_of_not_productive {nodes : List TreeNode} (h : ¬Productive nodes)
    (hlength : 2 ≤ nodes.length) (hmask : getEffectiveMask nodes = 0) :
    Returns Call.calls (.cnsts nodes) := by
  obtain ⟨hconstrained, hstuck⟩ := Classical.not_imp.mp h
  have htree : .cnsts nodes ∈ Call.calls (.tree nodes) := by
    rw [Call.calls, treeCalls_terminal hlength hmask hconstrained]
    exact List.mem_singleton.mpr rfl
  cases hglobal : getGlobalConstraint nodes with
  | none =>
      refine Returns.twice ?_ htree
      rw [Call.calls, cnstsCalls_none hglobal]
      exact List.mem_singleton.mpr rfl
  | some c =>
      have hstay : cnodeOf c nodes = nodes := by
        apply cnodeOf_eq
        intro node hnode
        rw [← Bool.not_eq_true]
        exact fun hmoves => hstuck ⟨c, hglobal, node, hnode, hmoves⟩
      have hcalls := cnstsCalls_some hglobal
      rw [hstay] at hcalls
      split at hcalls
      · apply Returns.once
        rw [Call.calls, hcalls]
        exact List.mem_singleton.mpr rfl
      · have hne : nodes.isEmpty = false := by
          rw [List.isEmpty_eq_false_iff]
          exact List.ne_nil_of_length_pos (by omega)
        refine Returns.twice ?_ htree
        rw [Call.calls, hcalls, hne]
        exact List.mem_append_left _ (List.mem_singleton.mpr rfl)

/-- The rank falls where every list that `divide_cnsts` gets can be divided by a constraint. -/
theorem rank_falls {root : Call}
    (hall : ∀ nodes, Reaches Call.calls root (.cnsts nodes) → Productive nodes) :
    ∀ c, Reaches Call.calls root c → ∀ c' ∈ c.calls, c'.rank < c.rank := by
  intro c hreached c' hc'
  cases c with
  | tree nodes => exact treeCalls_rank hc'
  | cnsts nodes => exact cnstsCalls_rank (hall nodes hreached) hc'

/-- The recursion ends where every list that `divide_cnsts` gets is productive. -/
theorem acc_iff {root : Call} (hroot : root.Sound) :
    Acc (MadeBy Call.calls) root ↔
      ∀ nodes, Reaches Call.calls root (.cnsts nodes) → Productive nodes := by
  constructor
  · intro hacc nodes hreached
    by_contra hstuck
    obtain ⟨hlength, hmask⟩ := hroot.of_reaches hreached
    exact not_returns_of_acc (acc_of_reaches hacc hreached)
      (returns_of_not_productive hstuck hlength hmask)
  · intro hall
    exact acc_of_rank Call.rank (rank_falls hall)

/-! ## Trees are made when the recursion ends -/

/-- A recursion that ends needs a bounded amount of fuel. -/
theorem done_of_acc {c : Call} (h : Acc (MadeBy Call.calls) c) (hsound : c.Sound) :
    ∃ n, ∀ f f', n ≤ f → n ≤ f' → c.Done (divideTree f) f' := by
  induction h with
  | intro c _ ih =>
      obtain ⟨n, hn⟩ := exists_bound
        (P := fun c n => ∀ f f', n ≤ f → n ≤ f' → Call.Done (divideTree f) f' c)
        (fun c m n hle hm f f' hf hf' => hm f f' (Nat.le_trans hle hf) (Nat.le_trans hle hf'))
        c.calls fun c' hc' => ih c' hc' (hsound.of_mem hc')
      refine ⟨n + 1, fun f f' hf hf' => ?_⟩
      cases c with
      | tree nodes =>
          obtain ⟨f, rfl⟩ := Nat.exists_eq_add_of_le' (Nat.le_trans (Nat.le_add_left 1 n) hf)
          exact (divideTree_isSome f hsound).mpr fun c' hc' =>
            hn c' hc' f f (by omega) (by omega)
      | cnsts nodes =>
          obtain ⟨f', rfl⟩ := Nat.exists_eq_add_of_le' (Nat.le_trans (Nat.le_add_left 1 n) hf')
          exact (divideCnsts_isSome nodes).mpr fun c' hc' =>
            hn c' hc' f f' (by omega) (by omega)

/-- A division that returns has a recursion that ends. -/
theorem acc_of_divideTree {fuel : Nat} {nodes : List TreeNode}
    (h : (divideTree fuel nodes).isSome = true) : Acc (MadeBy Call.calls) (.tree nodes) := by
  induction fuel generalizing nodes with
  | zero => cases h
  | succ fuel ih =>
      have hne : nodes ≠ [] := by
        rintro rfl
        rw [divideTree_nil] at h
        cases h
      have hcnsts : ∀ f nodes, (divideCnsts (divideTree fuel) f nodes).isSome = true →
          Acc (MadeBy Call.calls) (.cnsts nodes) := by
        intro f
        induction f with
        | zero =>
            intro nodes hdone
            cases hdone
        | succ f ihf =>
            intro nodes hdone
            refine Acc.intro _ fun c hc => ?_
            have hcdone := (divideCnsts_isSome nodes).mp hdone c hc
            cases c with
            | tree nodes' => exact ih hcdone
            | cnsts nodes' => exact ihf nodes' hcdone
      refine Acc.intro _ fun c hc => ?_
      have hcdone := (divideTree_isSome fuel hne).mp h c hc
      cases c with
      | tree nodes' => exact ih hcdone
      | cnsts nodes' => exact hcnsts fuel nodes' hcdone

/-- The call that `get_tree` makes. -/
def rootCall (entries : List Entry) : Call := .tree (entries.map .init)

theorem rootCall_sound {entries : List Entry} (h : entries ≠ []) : (rootCall entries).Sound := by
  rw [rootCall, Call.Sound, ne_eq, List.map_eq_nil_iff]
  exact h

/-- The recursion comes to an end, every call solves a smaller problem than the one that makes it,
and `divide_tree` does not get a list again. -/
structure DividesToLeaves (entries : List Entry) : Prop where
  ends : ∃ fuel tree, getTree fuel entries = some tree
  shrinks : ∀ c, Reaches Call.calls (rootCall entries) c → ∀ c' ∈ c.calls, c'.rank < c.rank
  fresh : ∀ nodes, Reaches Call.calls (rootCall entries) (.tree nodes) →
    ¬Returns Call.calls (.tree nodes)

theorem acc_of_getTree {entries : List Entry} (h : ∃ fuel tree, getTree fuel entries = some tree) :
    entries ≠ [] ∧ Acc (MadeBy Call.calls) (rootCall entries) := by
  obtain ⟨fuel, tree, htree⟩ := h
  constructor
  · rintro rfl
    rw [getTree, List.map_nil, divideTree_nil] at htree
    cases htree
  · have hdone : (divideTree fuel (entries.map .init)).isSome = true := by
      rw [← getTree, htree]
      rfl
    exact acc_of_divideTree hdone

/-- The construction ends just where every list that `divide_cnsts` gets is productive. -/
theorem dividesToLeaves_iff (entries : List Entry) :
    DividesToLeaves entries ↔ entries ≠ [] ∧
      ∀ nodes, Reaches Call.calls (rootCall entries) (.cnsts nodes) → Productive nodes := by
  constructor
  · intro h
    obtain ⟨hne, hacc⟩ := acc_of_getTree h.ends
    exact ⟨hne, (acc_iff (rootCall_sound hne)).mp hacc⟩
  · rintro ⟨hne, hall⟩
    have hacc := (acc_iff (rootCall_sound hne)).mpr hall
    obtain ⟨n, hn⟩ := done_of_acc hacc (rootCall_sound hne)
    refine ⟨⟨n, ?_⟩, rank_falls hall, fun nodes hreached => ?_⟩
    · exact Option.isSome_iff_exists.mp (hn n n (Nat.le_refl n) (Nat.le_refl n))
    · exact not_returns_of_acc (acc_of_reaches hacc hreached)

/-- An entry with a constraint on its low bits. -/
def lowConstrained (index : Nat) (mask : BitVec 64) : Entry where
  opcode := 8
  mask := 8
  cmask := mask
  tmask := 8 ||| mask
  cnsts := [⟨mask, 0⟩]
  index := index
  opcode_inside := rfl
  value_inside := by simp
  cmask_eq := by simp
  tmask_eq := rfl

/-- Two entries that match the same words, with constraints that overlap in one bit. No constraint
lies within that bit, so the two divisions hand the list back and forth. -/
theorem not_dividesToLeaves_overlap : ¬∀ entries, DividesToLeaves entries := by
  intro h
  obtain ⟨hne, hacc⟩ := acc_of_getTree (h [lowConstrained 0 3, lowConstrained 1 6]).ends
  have hcall : .cnsts [.init (lowConstrained 0 3), .init (lowConstrained 1 6)] ∈
      Call.calls (rootCall [lowConstrained 0 3, lowConstrained 1 6]) := by
    rw [rootCall, Call.calls, treeCalls_terminal (by decide) (by decide) (by decide)]
    exact List.mem_singleton.mpr rfl
  obtain ⟨c, hc, -⟩ := (acc_iff (rootCall_sound hne)).mp hacc _ (Reaches.call .refl hcall) rfl
  have hnone : getGlobalConstraint [.init (lowConstrained 0 3), .init (lowConstrained 1 6)] =
      none := by
    decide
  rw [hnone] at hc
  cases hc

end Amed.Generator
