import Amed.Library.Selection
import Amed.Generator.DecisionTree

/-!
# Trees select the most specific match

Every division keeps the entries that match a word on the path the word takes. Only the
comparison with whole entries drops a match, and it comes in the order of their bit counts.
-/

namespace Amed.Generator

open BitFields Selection

/-- An entry matches a word. -/
def Entry.Matches (w : BitVec 64) (e : Entry) : Prop :=
  w &&& e.mask = e.opcode ∧ ∀ c ∈ e.cnsts, w &&& c.mask ≠ c.value

/-- The bits of `a` are bits of `b`. -/
def Inside (a b : BitVec 64) : Prop := a &&& b = a

theorem inside_iff {a b : BitVec 64} :
    Inside a b ↔ ∀ i, a.getLsbD i = true → b.getLsbD i = true := by
  constructor
  · intro h i hi
    have hbit := congrArg (fun x => BitVec.getLsbD x i) h
    simp only [BitVec.getLsbD_and, hi, Bool.true_and] at hbit
    exact hbit
  · intro h
    apply BitVec.eq_of_getLsbD_eq
    intro i _
    rw [BitVec.getLsbD_and]
    cases hi : a.getLsbD i with
    | false => rfl
    | true => rw [h i hi]; rfl

theorem Inside.trans {a b c : BitVec 64} (h : Inside a b) (h' : Inside b c) : Inside a c :=
  inside_iff.mpr fun i hi => inside_iff.mp h' i (inside_iff.mp h i hi)

theorem inside_and_left (a b : BitVec 64) : Inside (a &&& b) a := by
  rw [inside_iff]
  intro i hi
  rw [BitVec.getLsbD_and, Bool.and_eq_true] at hi
  exact hi.1

theorem inside_and_right (a b : BitVec 64) : Inside (a &&& b) b := by
  rw [inside_iff]
  intro i hi
  rw [BitVec.getLsbD_and, Bool.and_eq_true] at hi
  exact hi.2

/-- The masks of the nodes are still masks of their entries. -/
def NodesInside (nodes : List TreeNode) : Prop := ∀ node ∈ nodes, Inside node.mask node.entry.mask

/-- On the bits that are left of its mask an entry agrees with the words it matches. -/
theorem Entry.Matches.and_eq {w : BitVec 64} {node : TreeNode} (h : node.entry.Matches w)
    (hnode : Inside node.mask node.entry.mask) {b : BitVec 64} (hb : Inside b node.mask) :
    w &&& b = node.entry.opcode &&& b := by
  have hb' : b &&& node.entry.mask = b := hb.trans hnode
  rw [← h.1, BitVec.and_assoc, BitVec.and_comm node.entry.mask, hb']

def entries (nodes : List TreeNode) : List Entry := nodes.map TreeNode.entry

/-- A tree selects the most specific of the nodes it was divided from. -/
def SelectsFrom (nodes : List TreeNode) (tree : Tree) : Prop :=
  ∀ w, Selects (Entry.Matches w) (fun e => getBitCount e.tmask) Entry.index (entries nodes)
    (tree.walk w)

/-- What is to be shown of a division. -/
def Divides (divide : List TreeNode → Option Tree) : Prop :=
  ∀ nodes tree, NodesInside nodes → divide nodes = some tree → SelectsFrom nodes tree

/-! ## Comparison with whole entries -/

theorem Test.holds_entry {w : BitVec 64} {e : Entry} :
    (Test.entry e.mask e.opcode e.cnsts).holds w = true ↔ e.Matches w := by
  simp [Test.holds, Entry.Matches]

theorem mem_entries {nodes : List TreeNode} {e : Entry} :
    e ∈ entries nodes ↔ ∃ node ∈ nodes, node.entry = e := List.mem_map

theorem divideHiBits_divides {divide : List TreeNode → Option Tree} (h : Divides divide) :
    Divides (divideHiBits divide) := by
  intro nodes tree hinside htree w
  unfold divideHiBits at htree
  generalize hsorted : nodes.mergeSort
    (fun a b => decide (getBitCount b.entry.tmask ≤ getBitCount a.entry.tmask)) = sorted at htree
  have hperm : sorted.Perm nodes := by
    rw [← hsorted]
    exact List.mergeSort_perm _ _
  cases sorted with
  | nil => cases htree
  | cons first next =>
      obtain ⟨case1, hcase1, htree⟩ := Option.bind_eq_some_iff.mp htree
      obtain ⟨case0, hcase0, rfl⟩ := Option.map_eq_some_iff.mp htree
      have hmem : ∀ node, node ∈ first :: next ↔ node ∈ nodes := fun node => hperm.mem_iff
      have hbest : ∀ node ∈ nodes, getBitCount node.entry.tmask ≤ getBitCount first.entry.tmask := by
        intro node hnode
        have hpair : (first :: next).Pairwise fun a b =>
            decide (getBitCount b.entry.tmask ≤ getBitCount a.entry.tmask) = true := by
          rw [← hsorted]
          exact List.pairwise_mergeSort (by simp; omega) (by simp; omega) nodes
        rcases List.mem_cons.mp ((hmem node).mpr hnode) with rfl | hnext
        · exact Nat.le_refl _
        · exact of_decide_eq_true (List.rel_of_pairwise_cons hpair hnext)
      rw [Tree.walk]
      split
      · rename_i hmatch
        have hfirst := Test.holds_entry.mp hmatch
        have hone := h [first] case1 (fun node hnode => hinside node
          ((hmem node).mp (List.mem_cons.mpr (Or.inl (List.mem_singleton.mp hnode))))) hcase1 w
        obtain ⟨e, he, -, hwalk, -⟩ := hone.complete ⟨first.entry, List.mem_singleton.mpr rfl, hfirst⟩
        cases List.mem_singleton.mp he
        rw [hwalk]
        refine Selects.best (mem_entries.mpr ⟨first, (hmem first).mp List.mem_cons_self, rfl⟩)
          hfirst fun e he => ?_
        obtain ⟨node, hnode, rfl⟩ := mem_entries.mp he
        exact hbest node hnode
      · rename_i hmatch
        have hsel := h next case0 (fun node hnode => hinside node
          ((hmem node).mp (List.mem_cons_of_mem _ hnode))) hcase0 w
        refine hsel.narrow (fun e he => ?_) fun e he hm => ?_
        · obtain ⟨node, hnode, rfl⟩ := mem_entries.mp he
          exact mem_entries.mpr ⟨node, (hmem node).mp (List.mem_cons_of_mem _ hnode), rfl⟩
        · obtain ⟨node, hnode, rfl⟩ := mem_entries.mp he
          rcases List.mem_cons.mp ((hmem node).mpr hnode) with rfl | hnext
          · exact absurd (Test.holds_entry.mpr hm) hmatch
          · exact mem_entries.mpr ⟨node, hnext, rfl⟩

/-! ## Division by a constraint -/

theorem getNodeConstraint_eq_some {node : TreeNode} {mask : BitVec 64} {c : Constraint}
    (h : getNodeConstraint node mask = some c) :
    c ∈ node.entry.cnsts ∧ Inside c.mask mask := by
  unfold getNodeConstraint at h
  split at h
  · cases h
  · refine ⟨List.mem_of_find?_eq_some h, ?_⟩
    have := List.find?_some h
    rw [decide_eq_true_eq, BitVec.and_comm] at this
    exact this

theorem getGlobalConstraint_mem {nodes : List TreeNode} {c : Constraint}
    (h : getGlobalConstraint nodes = some c) : ∃ node ∈ nodes, c ∈ node.entry.cnsts := by
  unfold getGlobalConstraint at h
  split at h
  · cases h
  · obtain ⟨node, hnode, hc⟩ := List.exists_of_findSome?_eq_some h
    exact ⟨node, hnode, (getNodeConstraint_eq_some hc).1⟩

/-- What the loop of `divide_cnsts` has made of the nodes it has seen. -/
structure Split.Holds (c : Constraint) (seen : List TreeNode) (s : Split) : Prop where
  gcmask : s.gcmask = c.mask
  gcvalue : s.gcvalue = c.value
  inside : NodesInside s.cnode ∧ NodesInside s.ncnode
  from_seen : ∀ e, e ∈ entries s.cnode ∨ e ∈ entries s.ncnode → e ∈ entries seen
  cnode : ∀ w e, e ∈ entries seen → e.Matches w → w &&& c.mask ≠ c.value → e ∈ entries s.cnode
  ncnode : ∀ w e, e ∈ entries seen → e.Matches w → w &&& c.mask = c.value → e ∈ entries s.ncnode

theorem Constraint.value_eq_zero {e : Entry} {c : Constraint} (h : c ∈ e.cnsts)
    (hmask : c.mask = 0) : c.value = 0 := by
  have hvalue := e.value_inside c h
  rw [hmask] at hvalue
  rw [← hvalue]
  exact BitVec.and_zero

/-- The copies of a node that a pass puts on a list. -/
def CopiesOf (node : TreeNode) (copies : List TreeNode) : Prop :=
  ∀ n ∈ copies, n.entry = node.entry ∧ n.mask = node.mask

theorem CopiesOf.nil (node : TreeNode) : CopiesOf node [] := fun n hn => absurd hn (by simp)

theorem CopiesOf.one (node : TreeNode) (cmask : BitVec 64) :
    CopiesOf node [{ node with cmask := cmask }] := by
  intro n hn
  cases List.mem_singleton.mp hn
  exact ⟨rfl, rfl⟩

theorem CopiesOf.mem_entries {node : TreeNode} {copies : List TreeNode} (h : CopiesOf node copies)
    (hne : copies ≠ []) : node.entry ∈ entries copies := by
  obtain ⟨n, ns, rfl⟩ := List.exists_cons_of_ne_nil hne
  exact Generator.mem_entries.mpr ⟨n, List.mem_cons_self, (h n List.mem_cons_self).1⟩

theorem mem_entries_append {xs ys : List TreeNode} {e : Entry} :
    e ∈ entries (xs ++ ys) ↔ e ∈ entries xs ∨ e ∈ entries ys := by
  rw [entries, List.map_append, List.mem_append]
  rfl

/-- A pass puts copies of the node on the lists it has to be on. -/
theorem Split.Holds.append {c : Constraint} {seen : List TreeNode} {s s' : Split}
    (h : s.Holds c seen) {node : TreeNode} (hnode : Inside node.mask node.entry.mask)
    (hmask : s'.gcmask = s.gcmask) (hvalue : s'.gcvalue = s.gcvalue) {yes no : List TreeNode}
    (hcnode : s'.cnode = s.cnode ++ yes) (hncnode : s'.ncnode = s.ncnode ++ no)
    (hcopies : CopiesOf node yes) (hcopies' : CopiesOf node no)
    (hyes : ∀ w, node.entry.Matches w → w &&& c.mask ≠ c.value → yes ≠ [])
    (hno : ∀ w, node.entry.Matches w → w &&& c.mask = c.value → no ≠ []) :
    s'.Holds c (seen ++ [node]) := by
  have hinside : ∀ {xs copies : List TreeNode}, NodesInside xs → CopiesOf node copies →
      NodesInside (xs ++ copies) := by
    intro xs copies hxs hc n hn
    rcases List.mem_append.mp hn with hn | hn
    · exact hxs n hn
    · obtain ⟨hentry, hm⟩ := hc n hn
      rw [hentry, hm]
      exact hnode
  have hentries : ∀ {copies : List TreeNode} {e : Entry}, CopiesOf node copies →
      e ∈ entries copies → e ∈ entries [node] := by
    intro copies e hc he
    obtain ⟨n, hn, rfl⟩ := Generator.mem_entries.mp he
    exact Generator.mem_entries.mpr ⟨node, List.mem_singleton.mpr rfl, (hc n hn).1.symm⟩
  refine ⟨hmask.trans h.gcmask, hvalue.trans h.gcvalue, ?_, fun e he => ?_, fun w e he hm hw => ?_,
    fun w e he hm hw => ?_⟩
  · rw [hcnode, hncnode]
    exact ⟨hinside h.inside.1 hcopies, hinside h.inside.2 hcopies'⟩
  · rw [hcnode, hncnode, mem_entries_append, mem_entries_append] at he
    rw [mem_entries_append]
    rcases he with (he | he) | he | he
    · exact Or.inl (h.from_seen e (Or.inl he))
    · exact Or.inr (hentries hcopies he)
    · exact Or.inl (h.from_seen e (Or.inr he))
    · exact Or.inr (hentries hcopies' he)
  · rw [hcnode, mem_entries_append]
    rcases mem_entries_append.mp he with he | he
    · exact Or.inl (h.cnode w e he hm hw)
    · obtain ⟨n, hn, rfl⟩ := Generator.mem_entries.mp he
      cases List.mem_singleton.mp hn
      exact Or.inr (hcopies.mem_entries (hyes w hm hw))
  · rw [hncnode, mem_entries_append]
    rcases mem_entries_append.mp he with he | he
    · exact Or.inl (h.ncnode w e he hm hw)
    · obtain ⟨n, hn, rfl⟩ := Generator.mem_entries.mp he
      cases List.mem_singleton.mp hn
      exact Or.inr (hcopies'.mem_entries (hno w hm hw))

/-- A node without the constraint. -/
theorem Split.Holds.place {c : Constraint} {seen : List TreeNode} {s : Split} (h : s.Holds c seen)
    {node : TreeNode} (hnode : Inside node.mask node.entry.mask) :
    (s.place node).Holds c (seen ++ [node]) := by
  have hself := CopiesOf.one node node.cmask
  unfold Split.place
  split
  · rename_i hbits
    have hbits' : Inside c.mask node.mask := by
      rw [Inside, BitVec.and_comm, ← h.gcmask]
      exact hbits
    split
    · rename_i heq
      rw [h.gcmask, h.gcvalue] at heq
      refine h.append hnode rfl rfl (List.append_nil _).symm rfl (.nil _) hself
        (fun w hm hw => ?_) fun w _ _ => List.cons_ne_nil _ _
      rw [hm.and_eq hnode hbits'] at hw
      exact absurd heq hw
    · rename_i hne
      rw [h.gcmask, h.gcvalue] at hne
      refine h.append hnode rfl rfl rfl (List.append_nil _).symm hself (.nil _)
        (fun w _ _ => List.cons_ne_nil _ _) fun w hm hw => ?_
      rw [hm.and_eq hnode hbits'] at hw
      exact absurd hw hne
  · exact h.append hnode rfl rfl rfl rfl hself hself (fun w _ _ => List.cons_ne_nil _ _)
      fun w _ _ => List.cons_ne_nil _ _

/-- Where the common mask is empty, so is that of every constraint found. -/
theorem Split.start_eq {s : Split} {node : TreeNode} {c : Constraint}
    (h : getNodeConstraint node s.gcmask = some c) (hzero : s.gcmask = 0 → s.gcvalue = 0) :
    (if s.gcmask = 0 then { s with gcmask := c.mask, gcvalue := c.value } else s) = s := by
  split
  · rename_i hgc
    obtain ⟨hmem, hinside⟩ := getNodeConstraint_eq_some h
    have hmask : c.mask = 0 := by
      rw [hgc] at hinside
      rw [← show c.mask &&& 0 = c.mask from hinside]
      exact BitVec.and_zero
    have hvalue := hzero hgc
    obtain ⟨gcmask, gcvalue, cnode, ncnode⟩ := s
    simp only at hgc hvalue
    rw [hgc, hvalue, hmask, Constraint.value_eq_zero hmem hmask]
  · rfl

theorem Split.Holds.step {c : Constraint} {seen : List TreeNode} {s : Split} (h : s.Holds c seen)
    (hzero : c.mask = 0 → c.value = 0) {node : TreeNode}
    (hnode : Inside node.mask node.entry.mask) : (s.step node).Holds c (seen ++ [node]) := by
  unfold Split.step
  split
  · exact h.place hnode
  · rename_i c' hc'
    obtain ⟨hmem, hinside⟩ := getNodeConstraint_eq_some hc'
    have hvalue : s.gcmask = 0 → s.gcvalue = 0 := by
      rw [h.gcmask, h.gcvalue]
      exact hzero
    simp only [Split.start_eq hc' hvalue]
    split
    · rename_i hequal
      refine h.append hnode rfl rfl rfl (List.append_nil _).symm (.one _ _) (.nil _)
        (fun w _ _ => List.cons_ne_nil _ _) fun w hm hw => ?_
      have hne := hm.2 c' hmem
      rw [hequal.1, ← hequal.2, h.gcmask, h.gcvalue] at hne
      exact absurd hw hne
    · exact h.place hnode

theorem foldl_split_holds {c : Constraint} (hzero : c.mask = 0 → c.value = 0)
    {nodes : List TreeNode} (hinside : NodesInside nodes) {seen : List TreeNode} {s : Split}
    (h : s.Holds c seen) : (nodes.foldl Split.step s).Holds c (seen ++ nodes) := by
  induction nodes generalizing seen s with
  | nil => rwa [List.append_nil]
  | cons node nodes ih =>
      obtain ⟨hnode, hrest⟩ := List.forall_mem_cons.mp hinside
      have hnext := ih hrest (h.step hzero hnode)
      rwa [List.append_assoc] at hnext

theorem divideCnsts_divides {divide : List TreeNode → Option Tree} (h : Divides divide)
    (fuel : Nat) : Divides (divideCnsts divide fuel) := by
  induction fuel with
  | zero =>
      intro nodes tree _ htree
      cases htree
  | succ fuel ih =>
      intro nodes tree hinside htree
      rw [divideCnsts] at htree
      split at htree
      · exact h nodes tree hinside htree
      · rename_i c hc
        obtain ⟨node, -, hmem⟩ := getGlobalConstraint_mem hc
        have hstart : (Split.mk c.mask c.value [] []).Holds c [] :=
          ⟨rfl, rfl, ⟨fun _ hn => absurd hn (by simp), fun _ hn => absurd hn (by simp)⟩,
            fun e he => by simp [entries] at he, fun w e he => by simp [entries] at he,
            fun w e he => by simp [entries] at he⟩
        have hsplit := foldl_split_holds (Constraint.value_eq_zero hmem) hinside hstart
        rw [List.nil_append] at hsplit
        generalize nodes.foldl Split.step ⟨c.mask, c.value, [], []⟩ = s at htree hsplit
        dsimp only at htree
        split at htree
        · rename_i hempty
          have hnil : s.ncnode = [] := List.isEmpty_iff.mp hempty
          intro w
          refine (ih s.cnode tree hsplit.inside.1 htree w).narrow
            (fun e he => hsplit.from_seen e (Or.inl he)) fun e he hm => ?_
          by_cases hw : w &&& c.mask = c.value
          · have := hsplit.ncnode w e he hm hw
            rw [hnil] at this
            cases this
          · exact hsplit.cnode w e he hm hw
        · obtain ⟨case1, hcase1, htree⟩ := Option.bind_eq_some_iff.mp htree
          obtain ⟨case0, hcase0, rfl⟩ := Option.map_eq_some_iff.mp htree
          intro w
          rw [Tree.walk, Test.holds, hsplit.gcmask, hsplit.gcvalue]
          by_cases hw : w &&& c.mask = c.value
          · rw [if_neg (by simp [hw])]
            exact (h s.ncnode case0 hsplit.inside.2 hcase0 w).narrow
              (fun e he => hsplit.from_seen e (Or.inr he)) fun e he hm => hsplit.ncnode w e he hm hw
          · rw [if_pos (by simp [hw])]
            split at hcase1
            · rename_i hempty
              cases hcase1
              refine .none fun e he hm => ?_
              have := hsplit.cnode w e he hm hw
              rw [List.isEmpty_iff.mp hempty] at this
              cases this
            · exact (h s.cnode case1 hsplit.inside.1 hcase1 w).narrow
                (fun e he => hsplit.from_seen e (Or.inl he)) fun e he hm => hsplit.cnode w e he hm hw

theorem divideTreeTerminal_divides {divide : List TreeNode → Option Tree} (h : Divides divide)
    (fuel : Nat) : Divides (divideTreeTerminal divide fuel) := by
  intro nodes tree hinside htree
  unfold divideTreeTerminal at htree
  split at htree
  · cases htree
  · cases htree
    intro w
    exact .singleton _
  · split at htree
    · exact divideCnsts_divides h fuel nodes tree hinside htree
    · exact divideHiBits_divides h nodes tree hinside htree

/-! ## Bytes of a word -/

theorem getLsbD_zero (i : Nat) : (0 : BitVec 64).getLsbD i = false := BitVec.getLsbD_zero

/-- A mask within one byte. -/
def InByte (mask : BitVec 64) (byte : Nat) : Prop :=
  ∀ i, mask.getLsbD i = true → 8 * byte ≤ i ∧ (0xff : BitVec 64).getLsbD (i - 8 * byte) = true

theorem getBlessedByteFromMask_inByte {mask : BitVec 64} {byte : Nat}
    (h : getBlessedByteFromMask mask = some byte) : InByte mask byte := by
  have hzero : mask &&& ~~~((0xff : BitVec 64) <<< (8 * byte)) = 0 := by
    have := List.find?_some h
    exact of_decide_eq_true this
  intro i hi
  have hlt : i < 64 := by
    by_contra hge
    rw [BitVec.getLsbD_of_ge _ _ (by omega)] at hi
    cases hi
  have hbit := congrArg (fun x => BitVec.getLsbD x i) hzero
  simp only [BitVec.getLsbD_and, hi, BitVec.getLsbD_not, BitVec.getLsbD_shiftLeft, hlt,
    decide_true, Bool.true_and, getLsbD_zero] at hbit
  rw [Bool.not_eq_false', Bool.and_eq_true] at hbit
  refine ⟨?_, hbit.2⟩
  have hnot := hbit.1
  simp only [Bool.not_eq_true', decide_eq_false_iff_not] at hnot
  omega

/-- A masked byte variable is the masked word, moved down. -/
theorem byteOf_and {mask : BitVec 64} {byte : Nat} (h : InByte mask byte) (w : BitVec 64) :
    byteOf w byte &&& mask >>> (8 * byte) = (w &&& mask) >>> (8 * byte) := by
  apply BitVec.eq_of_getLsbD_eq
  intro i _
  simp only [byteOf, BitVec.getLsbD_and, BitVec.getLsbD_ushiftRight]
  cases hm : mask.getLsbD (8 * byte + i) with
  | false => simp
  | true =>
      have hff := (h _ hm).2
      rw [Nat.add_sub_cancel_left] at hff
      rw [hff]
      simp

theorem InByte.shift_eq_zero {x : BitVec 64} {byte : Nat} (h : InByte x byte) :
    x >>> (8 * byte) = 0 ↔ x = 0 := by
  constructor
  · intro hzero
    apply BitVec.eq_of_getLsbD_eq
    intro i _
    rw [getLsbD_zero, Bool.eq_false_iff]
    intro hi
    have hbit := congrArg (fun x => BitVec.getLsbD x (i - 8 * byte)) hzero
    have hsum : 8 * byte + (i - 8 * byte) = i := by
      have := (h i hi).1
      omega
    simp only [BitVec.getLsbD_ushiftRight, hsum, hi, getLsbD_zero] at hbit
    cases hbit
  · rintro rfl
    exact BitVec.zero_ushiftRight

theorem InByte.of_inside {x mask : BitVec 64} {byte : Nat} (h : InByte mask byte)
    (hx : Inside x mask) : InByte x byte := fun i hi => h i (inside_iff.mp hx i hi)

/-! ## Division by bytes and bits -/

/-- A step of `get_effective_mask` only keeps bits of the nodes it has seen. -/
theorem effectiveStep_inside {s : BitVec 64 × BitVec 64 × BitVec 64} (node : TreeNode) :
    Inside (effectiveStep s node).1 s.1 ∧ Inside (effectiveStep s node).1 node.mask ∧
      Inside (effectiveStep s node).2.1 (effectiveStep s node).1 ∧
      Inside (effectiveStep s node).2.2 (effectiveStep s node).1 := by
  refine ⟨inside_and_left _ _, inside_and_right _ _, ?_, ?_⟩
  · exact (inside_and_right _ _).trans (inside_and_right _ _)
  · exact (inside_and_right _ _).trans (inside_and_right _ _)

theorem foldl_effectiveStep (nodes : List TreeNode) {s : BitVec 64 × BitVec 64 × BitVec 64}
    (h : Inside s.2.1 s.1) (h' : Inside s.2.2 s.1) :
    Inside (nodes.foldl effectiveStep s).1 s.1 ∧
      (∀ node ∈ nodes, Inside (nodes.foldl effectiveStep s).1 node.mask) ∧
      Inside (nodes.foldl effectiveStep s).2.1 (nodes.foldl effectiveStep s).1 ∧
      Inside (nodes.foldl effectiveStep s).2.2 (nodes.foldl effectiveStep s).1 := by
  induction nodes generalizing s with
  | nil => exact ⟨BitVec.and_self, by simp, h, h'⟩
  | cons node nodes ih =>
      obtain ⟨hs, hnode, hzero, hone⟩ := effectiveStep_inside (s := s) node
      obtain ⟨hfirst, hrest, hz, ho⟩ := ih hzero hone
      refine ⟨hfirst.trans hs, fun n hn => ?_, hz, ho⟩
      rcases List.mem_cons.mp hn with rfl | hn
      · exact hfirst.trans hnode
      · exact hrest n hn

/-- The effective mask holds bits that every node still has. -/
theorem getEffectiveMask_inside {nodes : List TreeNode} {node : TreeNode} (h : node ∈ nodes) :
    Inside (getEffectiveMask nodes) node.mask := by
  obtain ⟨-, hall, hzero, hone⟩ := foldl_effectiveStep nodes
    (s := (BitVec.allOnes 64, BitVec.allOnes 64, BitVec.allOnes 64)) BitVec.and_self BitVec.and_self
  refine Inside.trans ?_ (hall node h)
  rw [inside_iff] at hzero hone ⊢
  intro i hi
  simp only [getEffectiveMask, BitVec.getLsbD_xor, BitVec.getLsbD_or] at hi
  by_contra hnot
  have hz := mt (hzero i) hnot
  have ho := mt (hone i) hnot
  rw [Bool.not_eq_true] at hnot hz ho
  rw [hnot, hz, ho] at hi
  cases hi

theorem nodesInside_consume {nodes : List TreeNode} (h : NodesInside nodes) (p : TreeNode → Bool)
    (used : BitVec 64) : NodesInside ((nodes.filter p).map (.consume used)) := by
  intro n hn
  obtain ⟨node, hnode, rfl⟩ := List.mem_map.mp hn
  exact (inside_and_left _ _).trans (h node (List.mem_filter.mp hnode).1)

theorem mem_entries_consume {nodes : List TreeNode} {p : TreeNode → Bool} {used : BitVec 64}
    {e : Entry} : e ∈ entries ((nodes.filter p).map (.consume used)) ↔
      ∃ node ∈ nodes, p node = true ∧ node.entry = e := by
  simp [entries, TreeNode.consume, and_assoc]

/-- The case of a value is found among the cases. -/
theorem walkCases_of_mapM {f : BitVec 64 → Option Tree} {min : BitVec 64}
    {values : List (BitVec 64)} {cases : List (BitVec 64 × Tree)}
    (h : values.mapM (fun v => (f v).map fun tree => (v - min, tree)) = some cases)
    {v : BitVec 64} (hv : v ∈ values) (w : BitVec 64) :
    ∃ tree, f v = some tree ∧ walkCases w (v - min) cases = tree.walk w := by
  induction values generalizing cases with
  | nil => cases hv
  | cons v₀ values ih =>
      rw [List.mapM_cons] at h
      obtain ⟨case₀, hcase₀, h⟩ := Option.bind_eq_some_iff.mp h
      obtain ⟨cases', hcases, h⟩ := Option.bind_eq_some_iff.mp h
      cases h
      obtain ⟨tree₀, htree₀, rfl⟩ := Option.map_eq_some_iff.mp hcase₀
      rw [walkCases]
      by_cases heq : v₀ = v
      · subst heq
        exact ⟨tree₀, htree₀, by rw [if_pos rfl]⟩
      · have hne : v₀ - min ≠ v - min := by
          intro hsub
          exact heq ((BitVec.sub_left_inj min).mp hsub)
        rw [if_neg hne]
        rcases List.mem_cons.mp hv with hv | hv
        · exact absurd hv.symm heq
        · exact ih hcases hv

/-- A switch only returns what one of its cases returns. -/
theorem walkCases_sound {f : BitVec 64 → Option Tree} {min : BitVec 64} {values : List (BitVec 64)}
    {cases : List (BitVec 64 × Tree)}
    (h : values.mapM (fun v => (f v).map fun tree => (v - min, tree)) = some cases)
    {w key : BitVec 64} {i : Nat} (hi : walkCases w key cases = some i) :
    ∃ v tree, f v = some tree ∧ tree.walk w = some i := by
  induction values generalizing cases with
  | nil =>
      cases h
      cases hi
  | cons v values ih =>
      rw [List.mapM_cons] at h
      obtain ⟨case₀, hcase₀, h⟩ := Option.bind_eq_some_iff.mp h
      obtain ⟨cases', hcases, h⟩ := Option.bind_eq_some_iff.mp h
      cases h
      obtain ⟨tree, htree, rfl⟩ := Option.map_eq_some_iff.mp hcase₀
      rw [walkCases] at hi
      split at hi
      · exact ⟨v, tree, htree, hi⟩
      · exact ih hcases hi

theorem divideTreeUsingSwitch_divides {divide : List TreeNode → Option Tree} (h : Divides divide)
    (fuel : Nat) {nodes : List TreeNode} (hinside : NodesInside nodes) {tree : Tree}
    (htree : divideTreeUsingSwitch divide fuel nodes = some (some tree)) :
    SelectsFrom nodes tree := by
  unfold divideTreeUsingSwitch at htree
  dsimp only at htree
  split at htree
  · exact divideTreeTerminal_divides h fuel nodes tree hinside (Option.some.inj htree)
  split at htree
  · cases htree
  split at htree
  · cases htree
  rename_i byte hbyte
  split at htree
  · cases htree
  obtain ⟨cases, hcases, rfl⟩ := Option.map_eq_some_iff.mp (Option.some.inj htree)
  intro w
  have hin := getBlessedByteFromMask_inByte hbyte
  have hvalue : ∀ n ∈ nodes, n.entry.Matches w →
      (n.entry.opcode &&& getEffectiveMask nodes) >>> (8 * byte) =
        (w &&& getEffectiveMask nodes) >>> (8 * byte) := by
    intro n hn hmn
    rw [hmn.and_eq (hinside n hn) (getEffectiveMask_inside hn)]
  rw [Tree.walk, byteOf_and hin]
  constructor
  · intro i hi
    obtain ⟨v, tree, hdivide, hwalk⟩ := walkCases_sound hcases hi
    obtain ⟨e, he, hindex⟩ := (h _ tree (nodesInside_consume hinside _ _) hdivide w).sound i hwalk
    obtain ⟨n, hn, -, rfl⟩ := mem_entries_consume.mp he
    exact ⟨n.entry, mem_entries.mpr ⟨n, hn, rfl⟩, hindex⟩
  · rintro ⟨e, he, hm⟩
    obtain ⟨node, hnode, rfl⟩ := mem_entries.mp he
    have hmem : (w &&& getEffectiveMask nodes) >>> (8 * byte) ∈
        (nodes.map fun n =>
          (n.entry.opcode &&& getEffectiveMask nodes) >>> (8 * byte)).eraseDups := by
      rw [List.mem_eraseDups, ← hvalue node hnode hm]
      exact List.mem_map_of_mem hnode
    obtain ⟨case, hdivide, hwalk⟩ := walkCases_of_mapM hcases hmem w
    have hsel := h _ case (nodesInside_consume hinside _ _) hdivide w
    rw [hwalk]
    refine (hsel.narrow (fun e he => ?_) fun e he hme => ?_).complete ⟨node.entry, he, hm⟩
    · obtain ⟨n, hn, -, rfl⟩ := mem_entries_consume.mp he
      exact mem_entries.mpr ⟨n, hn, rfl⟩
    · obtain ⟨n, hn, rfl⟩ := mem_entries.mp he
      exact mem_entries_consume.mpr ⟨n, hn, decide_eq_true (hvalue n hn hme), rfl⟩

theorem foldl_and_inside (nodes : List TreeNode) (m : BitVec 64) :
    Inside (nodes.foldl (fun m node => m &&& node.mask) m) m ∧
      ∀ node ∈ nodes, Inside (nodes.foldl (fun m node => m &&& node.mask) m) node.mask := by
  induction nodes generalizing m with
  | nil => exact ⟨BitVec.and_self, by simp⟩
  | cons node nodes ih =>
      obtain ⟨hm, hrest⟩ := ih (m &&& node.mask)
      refine ⟨hm.trans (inside_and_left _ _), fun n hn => ?_⟩
      rcases List.mem_cons.mp hn with rfl | hn
      · exact hm.trans (inside_and_right _ _)
      · exact hrest n hn

/-- A bit that is set in a mask, as a mask. -/
theorem bit_inside {mask : BitVec 64} {bit : Nat} (h : mask.getLsbD bit = true) :
    Inside ((1 : BitVec 64) <<< bit) mask := by
  rw [inside_iff]
  intro i hi
  rw [BitVec.getLsbD_shiftLeft, Bool.and_eq_true, Bool.and_eq_true] at hi
  have hlow := hi.1.2
  simp only [Bool.not_eq_true', decide_eq_false_iff_not, Nat.not_lt] at hlow
  have hone : i - bit = 0 := by
    have := hi.2
    rw [show (1 : BitVec 64) = 1#64 from rfl, BitVec.getLsbD_one] at this
    simpa using this
  rwa [show i = bit by omega]

/-- All nodes on one side. -/
theorem selects_of_side {nodes : List TreeNode} {p : TreeNode → Bool} {used : BitVec 64}
    {tree : Tree} {w : BitVec 64}
    (h : Selects (Entry.Matches w) (fun e => getBitCount e.tmask) Entry.index
      (entries ((nodes.filter p).map (.consume used))) (tree.walk w))
    (hkeep : ∀ node ∈ nodes, node.entry.Matches w → p node = true) :
    Selects (Entry.Matches w) (fun e => getBitCount e.tmask) Entry.index (entries nodes)
      (tree.walk w) := by
  refine h.narrow (fun e he => ?_) fun e he hm => ?_
  · obtain ⟨node, hnode, -, rfl⟩ := mem_entries_consume.mp he
    exact mem_entries.mpr ⟨node, hnode, rfl⟩
  · obtain ⟨node, hnode, rfl⟩ := mem_entries.mp he
    exact mem_entries_consume.mpr ⟨node, hnode, hkeep node hnode hm, rfl⟩

theorem filter_isEmpty {nodes : List TreeNode} {p : TreeNode → Bool} {used : BitVec 64}
    (h : ((nodes.filter p).map (TreeNode.consume used)).isEmpty = true) :
    ∀ node ∈ nodes, p node = false := by
  intro node hnode
  rw [List.isEmpty_iff, List.map_eq_nil_iff, List.filter_eq_nil_iff] at h
  exact Bool.not_eq_true _ |>.mp (h node hnode)

theorem divideTreeUsingIf_divides {divide : List TreeNode → Option Tree} (h : Divides divide)
    (fuel passes : Nat) : Divides (divideTreeUsingIf divide fuel passes) := by
  induction passes with
  | zero =>
      intro nodes tree _ htree
      cases htree
  | succ passes ih =>
      intro nodes tree hinside htree
      rw [divideTreeUsingIf] at htree
      dsimp only at htree
      split at htree
      · exact divideTreeTerminal_divides h fuel nodes tree hinside htree
      split at htree
      · exact divideTreeTerminal_divides h fuel nodes tree hinside htree
      rename_i bit hbit
      have hset := List.find?_some hbit
      generalize hmask : (1 : BitVec 64) <<< bit = bitmask at htree
      have hbits : ∀ node ∈ nodes, Inside bitmask node.mask := by
        intro node hnode
        rw [← hmask]
        exact (bit_inside hset).trans ((foldl_and_inside nodes _).2 node hnode)
      have hnode : ∀ w, ∀ node ∈ nodes, node.entry.Matches w →
          w &&& bitmask = node.entry.opcode &&& bitmask :=
        fun w node hn hm => hm.and_eq (hinside node hn) (hbits node hn)
      split at htree
      · rename_i hbyte
        have hsome : ∀ bit ∈ List.range 64,
            (getBlessedByteFromMask ((1 : BitVec 64) <<< bit)).isSome := by
          decide
        have := hsome bit (List.mem_of_find?_eq_some hbit)
        rw [hmask, hbyte] at this
        cases this
      rename_i byte hbyte
      have hin := getBlessedByteFromMask_inByte hbyte
      split at htree
      · rename_i hempty
        intro w
        refine selects_of_side (ih _ tree (nodesInside_consume hinside _ _) htree w) ?_
        intro node hn _
        simpa using filter_isEmpty hempty node hn
      split at htree
      · rename_i hempty
        intro w
        refine selects_of_side (ih _ tree (nodesInside_consume hinside _ _) htree w) ?_
        intro node hn _
        simpa using filter_isEmpty hempty node hn
      obtain ⟨case0, hcase0, htree⟩ := Option.bind_eq_some_iff.mp htree
      obtain ⟨case1, hcase1, rfl⟩ := Option.map_eq_some_iff.mp htree
      intro w
      have htest : (Test.bit byte (bitmask >>> (8 * byte))).holds w =
          decide (w &&& bitmask ≠ 0) := by
        rw [Test.holds, byteOf_and hin]
        have := (hin.of_inside (inside_and_right w bitmask)).shift_eq_zero
        simp only [ne_eq, this]
      rw [Tree.walk, htest]
      by_cases hw : w &&& bitmask = 0
      · have hclear : ¬decide (w &&& bitmask ≠ 0) = true := by
          rw [decide_eq_true_eq, not_not]
          exact hw
        rw [if_neg hclear]
        refine selects_of_side (h _ case0 (nodesInside_consume hinside _ _) hcase0 w) ?_
        intro node hn hm
        have hopcode := hnode w node hn hm
        rw [hw] at hopcode
        simp [← hopcode]
      · rw [if_pos (decide_eq_true hw)]
        refine selects_of_side (h _ case1 (nodesInside_consume hinside _ _) hcase1 w) ?_
        intro node hn hm
        exact decide_eq_true (hnode w node hn hm ▸ hw)

theorem divideTree_divides (fuel : Nat) : Divides (divideTree fuel) := by
  induction fuel with
  | zero =>
      intro nodes tree _ htree
      cases htree
  | succ fuel ih =>
      intro nodes tree hinside htree
      rw [divideTree] at htree
      split at htree
      · cases htree
      split at htree
      · rename_i hswitch
        rw [htree] at hswitch
        exact divideTreeUsingSwitch_divides ih fuel hinside hswitch
      · exact divideTreeUsingIf_divides ih fuel 65 nodes tree hinside htree

/-! ## The tree -/

theorem nodesInside_init (es : List Entry) : NodesInside (es.map .init) := by
  intro node hnode
  obtain ⟨e, -, rfl⟩ := List.mem_map.mp hnode
  exact BitVec.and_self

theorem entries_init (es : List Entry) : entries (es.map .init) = es := by
  rw [entries, List.map_map]
  exact List.map_id _

theorem Entry.tmask_ne_zero {e : Entry} (h : e.mask ≠ 0) : e.tmask ≠ 0 := by
  rw [e.tmask_eq]
  intro hzero
  apply h
  apply BitVec.eq_of_getLsbD_eq
  intro i _
  have hbit := congrArg (fun x => BitVec.getLsbD x i) hzero
  simp only [BitVec.getLsbD_or] at hbit
  rw [show (0 : BitVec 64) = 0#64 from rfl, BitVec.getLsbD_zero, Bool.or_eq_false_iff] at hbit
  rw [hbit.1]
  exact BitVec.getLsbD_zero.symm

theorem bitCount_le_getBitCount (x : BitVec 64) : bitCount 64 x.toNat ≤ getBitCount x := by
  unfold getBitCount
  split
  · rename_i hzero
    rw [hzero]
    decide
  · exact Nat.le_refl _

theorem getTree_selectsFrom {fuel : Nat} {es : List Entry} {tree : Tree}
    (htree : getTree fuel es = some tree) (w : BitVec 64) :
    Selects (Entry.Matches w) (fun e => getBitCount e.tmask) Entry.index es (tree.walk w) := by
  have hselects := divideTree_divides fuel _ tree (nodesInside_init es) htree w
  rwa [entries_init] at hselects

/-- The walk ends in a match whenever there is one, and of all matches it has the most bits. The
count the sort uses takes an empty mask for one bit. -/
theorem getTree_selects {fuel : Nat} {es : List Entry} {tree : Tree}
    (htree : getTree fuel es = some tree) (w : BitVec 64) (hmatch : ∃ e ∈ es, e.Matches w) :
    ∃ e ∈ es, tree.walk w = some e.index ∧ e.Matches w ∧
      (∀ e' ∈ es, e'.Matches w → getBitCount e'.tmask ≤ getBitCount e.tmask) ∧
      (e.mask ≠ 0 → ∀ e' ∈ es, e'.Matches w →
        bitCount 64 e'.tmask.toNat ≤ bitCount 64 e.tmask.toNat) := by
  obtain ⟨e, he, hm, hwalk, hbest⟩ := (getTree_selectsFrom htree w).complete hmatch
  refine ⟨e, he, hwalk, hm, hbest, fun hmask e' he' hm' => ?_⟩
  calc bitCount 64 e'.tmask.toNat
      ≤ getBitCount e'.tmask := bitCount_le_getBitCount _
    _ ≤ getBitCount e.tmask := hbest e' he' hm'
    _ = bitCount 64 e.tmask.toNat := if_neg (Entry.tmask_ne_zero hmask)

/-- A byte value, a value with a constraint on the high bits, and a bit. -/
def threeEntries : List Entry :=
  [⟨0x01, 0x0f, 0, 0x0f, [], 7, by decide, by decide, by decide, by decide⟩,
   ⟨0x02, 0x0f, 0xc0, 0xcf, [⟨0xc0, 0xc0⟩], 8, by decide, by decide, by decide, by decide⟩,
   ⟨0x04, 0x0f, 0, 0x0f, [], 9, by decide, by decide, by decide, by decide⟩]

theorem getTree_threeEntries : getTree 3 threeEntries =
    some (.switch 0 0x07 1 [(0, .leaf 7), (1, .leaf 8), (3, .leaf 9)]) := rfl

theorem getTree_selects_three : ∃ e ∈ threeEntries,
    (Tree.switch 0 0x07 1 [(0, .leaf 7), (1, .leaf 8), (3, .leaf 9)]).walk 0x42 = some e.index ∧
      e.Matches 0x42 ∧
      (∀ e' ∈ threeEntries, e'.Matches 0x42 → getBitCount e'.tmask ≤ getBitCount e.tmask) ∧
      (e.mask ≠ 0 → ∀ e' ∈ threeEntries, e'.Matches 0x42 →
        bitCount 64 e'.tmask.toNat ≤ bitCount 64 e.tmask.toNat) :=
  getTree_selects getTree_threeEntries 0x42
    ⟨threeEntries[1], List.getElem_mem _, by decide, by decide⟩

end Amed.Generator
