import Mathlib.Data.List.Induction
import Mathlib.Data.List.Nodup
import Mathlib.Order.Basic

/-!
# Numbering the elements of a list

The elements of a list without duplicates have their positions for numbers. A list that is sorted
by a relation numbers its elements in that order.
-/

namespace Amed.Numbering

variable {α : Type*}

/-- The number of an element is the position it is found at. -/
theorem idxOf?_eq_some_iff [BEq α] [LawfulBEq α] {l : List α} (h : l.Nodup) {a : α} {i : Nat} :
    l.idxOf? a = some i ↔ l[i]? = some a := by
  rw [List.idxOf?_eq_some_iff]
  constructor
  · rintro ⟨hi, rfl, -⟩
    exact List.getElem?_eq_getElem hi
  · intro hget
    obtain ⟨hi, rfl⟩ := List.getElem?_eq_some_iff.mp hget
    refine ⟨hi, rfl, fun j hj heq => ?_⟩
    have hji := (h.getElem_inj_iff (i := j) (j := i)).mp heq
    omega

/-- An element that is added at the end has the next number, the others keep theirs. -/
theorem getElem?_concat_eq_some_iff {l : List α} {a b : α} {i : Nat} :
    (l ++ [a])[i]? = some b ↔ l[i]? = some b ∨ i = l.length ∧ a = b := by
  obtain hi | rfl | hi := Nat.lt_trichotomy i l.length
  · rw [List.getElem?_append_left hi]
    exact ⟨.inl, fun h => h.resolve_right fun h => absurd h.1 (Nat.ne_of_lt hi)⟩
  · rw [List.getElem?_concat_length, List.getElem?_eq_none (Nat.le_refl _), Option.some_inj]
    simp
  · rw [List.getElem?_eq_none (by simp; omega), List.getElem?_eq_none (Nat.le_of_lt hi)]
    simp [Nat.ne_of_gt hi]

theorem getElem?_concat_of_some {l : List α} {b : α} {i : Nat} (h : l[i]? = some b) (a : α) :
    (l ++ [a])[i]? = some b :=
  getElem?_concat_eq_some_iff.mpr (.inl h)

/-- A function that tells the elements apart keeps their numbers. -/
theorem idxOf?_map {β : Type*} [BEq α] [LawfulBEq α] [BEq β] [LawfulBEq β] {f : α → β}
    (hf : Function.Injective f) (l : List α) (a : α) : (l.map f).idxOf? (f a) = l.idxOf? a := by
  induction l with
  | nil => rfl
  | cons b l ih =>
      rw [List.map_cons, List.idxOf?_cons, List.idxOf?_cons, ih]
      have hbeq : (f b == f a) = (b == a) := by
        rw [Bool.eq_iff_iff, beq_iff_eq, beq_iff_eq, hf.eq_iff]
      rw [hbeq]

/-- In a sorted list the order of the numbers is the order of the elements. -/
theorem lt_iff_of_pairwise {R : α → α → Prop} {l : List α} (h : l.Pairwise R)
    (hasymm : ∀ a b, R a b → ¬R b a) {i j : Nat} {a b : α} (ha : l[i]? = some a)
    (hb : l[j]? = some b) : i < j ↔ R a b := by
  obtain ⟨hi, rfl⟩ := List.getElem?_eq_some_iff.mp ha
  obtain ⟨hj, rfl⟩ := List.getElem?_eq_some_iff.mp hb
  rw [List.pairwise_iff_getElem] at h
  constructor
  · exact h i j hi hj
  · intro hr
    obtain hlt | rfl | hgt := Nat.lt_trichotomy i j
    · exact hlt
    · exact absurd hr (hasymm _ _ hr)
    · exact absurd (h j i hj hi hgt) (hasymm _ _ hr)

/-! ## First occurrences -/

theorem nodup_eraseDups [BEq α] [LawfulBEq α] (xs : List α) : xs.eraseDups.Nodup := by
  induction hlength : xs.length using Nat.strongRecOn generalizing xs with
  | ind n ih =>
      cases xs with
      | nil => simp
      | cons x xs =>
          rw [List.eraseDups_cons, List.nodup_cons]
          have hlt : (xs.filter fun b => !b == x).length < n := by
            rw [← hlength, List.length_cons]
            exact Nat.lt_succ_of_le (List.length_filter_le _ _)
          refine ⟨?_, ih _ hlt _ rfl⟩
          rw [List.mem_eraseDups, List.mem_filter]
          simp

theorem eraseDups_concat [BEq α] [LawfulBEq α] (xs : List α) (a : α) :
    (xs ++ [a]).eraseDups = if a ∈ xs then xs.eraseDups else xs.eraseDups ++ [a] := by
  have hlast : [a].removeAll xs = if a ∈ xs then [] else [a] := by
    by_cases h : a ∈ xs <;> simp [List.removeAll, h]
  rw [List.eraseDups_append, hlast]
  split
  · rw [List.eraseDups_nil, List.append_nil]
  · rw [List.eraseDups_cons, List.filter_nil, List.eraseDups_nil]

theorem eraseDups_sublist [BEq α] [LawfulBEq α] (xs : List α) : xs.eraseDups.Sublist xs := by
  induction xs using List.reverseRecOn with
  | nil => exact List.Sublist.refl _
  | append_singleton xs a ih =>
      rw [eraseDups_concat]
      split
      · exact ih.trans (List.sublist_append_left _ _)
      · exact ih.append_right [a]

theorem eraseDups_eq_self_iff [BEq α] [LawfulBEq α] {xs : List α} :
    xs.eraseDups = xs ↔ xs.Nodup := by
  constructor
  · intro h
    rw [← h]
    exact nodup_eraseDups xs
  · intro h
    induction xs using List.reverseRecOn with
    | nil => rfl
    | append_singleton xs a ih =>
        rw [List.nodup_append] at h
        rw [eraseDups_concat, if_neg fun ha => h.2.2 a ha a (List.mem_singleton.mpr rfl) rfl,
          ih h.1]

/-- A new element gets the number of different elements before it. -/
theorem idxOf?_eraseDups_of_notMem [BEq α] [LawfulBEq α] {xs : List α} {a : α} (h : a ∉ xs)
    (ys : List α) : (xs ++ a :: ys).eraseDups.idxOf? a = some xs.eraseDups.length := by
  rw [idxOf?_eq_some_iff (nodup_eraseDups _), ← List.singleton_append, ← List.append_assoc,
    List.eraseDups_append, eraseDups_concat, if_neg h, List.append_assoc,
    List.getElem?_append_right (Nat.le_refl _), Nat.sub_self]
  rfl

/-- An element has its own position for a number where nothing up to it comes twice. -/
theorem idxOf?_eraseDups_iff [BEq α] [LawfulBEq α] {xs : List α} {k : Nat} {a : α}
    (hk : xs[k]? = some a) : xs.eraseDups.idxOf? a = some k ↔ (xs.take (k + 1)).Nodup := by
  obtain ⟨hlt, ha⟩ := List.getElem?_eq_some_iff.mp hk
  have hlength : (xs.take k).length = k := List.length_take_of_le (Nat.le_of_lt hlt)
  have hle := (eraseDups_sublist (xs.take k)).length_le
  rw [List.take_add_one, hk, Option.toList_some, List.nodup_append]
  by_cases hmem : a ∈ xs.take k
  · -- an element that has come before has a smaller number
    refine iff_of_false (fun h => ?_) fun h => h.2.2 _ hmem _ (List.mem_singleton.mpr rfl) rfl
    have hfirst : xs.eraseDups =
        (xs.take k).eraseDups ++ ((xs.drop k).removeAll (xs.take k)).eraseDups := by
      rw [← List.eraseDups_append, List.take_append_drop]
    obtain ⟨j, hj, heq⟩ := List.getElem_of_mem (List.mem_eraseDups.mpr hmem)
    have hget : xs.eraseDups[j]? = some a := by
      rw [hfirst, List.getElem?_append_left hj, List.getElem?_eq_getElem hj, heq]
    rw [← idxOf?_eq_some_iff (nodup_eraseDups _)] at hget
    have hjk : j = k := Option.some.inj (hget.symm.trans h)
    omega
  · have hnumber := idxOf?_eraseDups_of_notMem hmem (xs.drop (k + 1))
    rw [← ha, ← List.drop_eq_getElem_cons hlt, List.take_append_drop, ha] at hnumber
    rw [hnumber, Option.some_inj]
    constructor
    · intro h
      have heq := (eraseDups_sublist (xs.take k)).eq_of_length (h.trans hlength.symm)
      refine ⟨eraseDups_eq_self_iff.mp heq, List.nodup_singleton _, fun b hb c hc => ?_⟩
      obtain rfl := List.mem_singleton.mp hc
      rintro rfl
      exact hmem hb
    · intro h
      rw [eraseDups_eq_self_iff.mpr h.1, hlength]

/-- Up to the first repetition the elements stay where they are. -/
theorem getElem?_eraseDups [BEq α] [LawfulBEq α] {xs : List α} {k : Nat}
    (h : (xs.take (k + 1)).Nodup) : xs.eraseDups[k]? = xs[k]? := by
  cases hk : xs[k]? with
  | some a =>
      rw [← idxOf?_eq_some_iff (nodup_eraseDups _)]
      exact (idxOf?_eraseDups_iff hk).mpr h
  | none =>
      have hle : xs.length ≤ k := List.getElem?_eq_none_iff.mp hk
      rw [List.take_of_length_le (Nat.le_succ_of_le hle)] at h
      rw [eraseDups_eq_self_iff.mpr h, hk]

/-! ## Bounds -/

/-- The loop that keeps the largest number so far. -/
theorem le_foldl_max (xs : List Nat) (m : Nat) :
    m ≤ xs.foldl max m ∧ ∀ x ∈ xs, x ≤ xs.foldl max m := by
  induction xs generalizing m with
  | nil => simp
  | cons x xs ih =>
      obtain ⟨hm, hxs⟩ := ih (max m x)
      rw [List.foldl_cons]
      refine ⟨Nat.le_trans (Nat.le_max_left m x) hm, fun y hy => ?_⟩
      obtain rfl | hy := List.mem_cons.mp hy
      · exact Nat.le_trans (Nat.le_max_right m y) hm
      · exact hxs y hy

/-- The first hit in a sorted list is the least one. -/
theorem find?_eq_some_iff_least [Preorder α] {l : List α} (h : l.Pairwise (· < ·)) {P : α → Bool}
    {a : α} : l.find? P = some a ↔ a ∈ l ∧ P a = true ∧ ∀ b ∈ l, b < a → P b = false := by
  rw [List.find?_eq_some_iff_append]
  constructor
  · rintro ⟨ha, before, behind, rfl, hbefore⟩
    refine ⟨List.mem_append_right _ List.mem_cons_self, ha, fun b hb hlt => ?_⟩
    obtain hb | hb := List.mem_append.mp hb
    · simpa using hbefore b hb
    · obtain ⟨-, hbehind, -⟩ := List.pairwise_append.mp h
      obtain rfl | hb := List.mem_cons.mp hb
      · exact absurd hlt (lt_irrefl b)
      · exact absurd hlt ((List.rel_of_pairwise_cons hbehind hb).asymm)
  · rintro ⟨hmem, ha, hless⟩
    obtain ⟨before, behind, rfl⟩ := List.append_of_mem hmem
    refine ⟨ha, before, behind, rfl, fun b hb => ?_⟩
    obtain ⟨-, -, hsorted⟩ := List.pairwise_append.mp h
    rw [hless b (List.mem_append_left _ hb) (hsorted b hb a List.mem_cons_self)]
    rfl

end Amed.Numbering
