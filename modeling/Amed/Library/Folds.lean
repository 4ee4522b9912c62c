import Mathlib.Data.List.Dedup
import Mathlib.Data.List.Perm.Basic

/-!
# Folds over lists that differ in what the fold does not notice

A fold over a list and over the same list less every marked element that a later marked one
follows; a fold whose operations commute over two lists with the same members.
-/

namespace Amed.Folds

variable {α β : Type*}

/-! ## The last marked element -/

/-- Remove every marked element but the last one. -/
def keepLast (p : α → Bool) : List α → List α
  | [] => []
  | a :: l => if p a && l.any p then keepLast p l else a :: keepLast p l

variable {p : α → Bool}

theorem keepLast_cons_of_dropped {a : α} {l : List α} (ha : p a = true) (hl : l.any p = true) :
    keepLast p (a :: l) = keepLast p l := by
  simp [keepLast, ha, hl]

theorem keepLast_cons_of_kept {a : α} {l : List α} (h : ¬(p a = true ∧ l.any p = true)) :
    keepLast p (a :: l) = a :: keepLast p l := by
  rw [← Bool.and_eq_true] at h
  simp only [keepLast, h, if_false, Bool.false_eq_true]

theorem keepLast_sublist (p : α → Bool) (l : List α) : (keepLast p l).Sublist l := by
  induction l with
  | nil => exact List.Sublist.slnil
  | cons a l ih =>
      unfold keepLast
      split
      · exact ih.cons a
      · exact ih.cons_cons a

/-- A property that every marked element has is not lost. -/
theorem any_keepLast {q : α → Bool} (hpq : ∀ a, p a = true → q a = true) (l : List α) :
    (keepLast p l).any q = l.any q := by
  induction l with
  | nil => rfl
  | cons a l ih =>
      by_cases hdropped : p a = true ∧ l.any p = true
      · rw [keepLast_cons_of_dropped hdropped.1 hdropped.2, ih, List.any_cons, hpq a hdropped.1,
          Bool.true_or]
        obtain ⟨b, hb, hp⟩ := List.any_eq_true.mp hdropped.2
        exact List.any_eq_true.mpr ⟨b, hb, hpq b hp⟩
      · rw [keepLast_cons_of_kept hdropped, List.any_cons, List.any_cons, ih]

/-- A relation between two states that a kept element preserves and that a marked element of
the second run alone preserves. -/
theorem foldl_keepLast_rel {r : β → β → Prop} {f : β → α → β} {l : List α}
    (hkeep : ∀ a ∈ l, ∀ s s', r s s' → r (f s a) (f s' a))
    (hdrop : ∀ a ∈ l, p a = true → ∀ s s', r s s' → r s (f s' a)) {s s' : β} (h : r s s') :
    r ((keepLast p l).foldl f s) (l.foldl f s') := by
  induction l generalizing s s' with
  | nil => exact h
  | cons a l ih =>
      have ih := @ih (fun b hb => hkeep b (List.mem_cons_of_mem a hb))
        (fun b hb => hdrop b (List.mem_cons_of_mem a hb))
      have ha : a ∈ a :: l := List.mem_cons_self
      by_cases hdropped : p a = true ∧ l.any p = true
      · rw [keepLast_cons_of_dropped hdropped.1 hdropped.2]
        exact ih (hdrop a ha hdropped.1 s s' h)
      · rw [keepLast_cons_of_kept hdropped]
        exact ih (hkeep a ha s s' h)

/-- When marked elements overwrite the state, the last one decides. -/
theorem foldl_eq_of_any {f : β → α → β} {l : List α} (hover : ∀ a ∈ l, p a = true →
    ∀ s s', f s a = f s' a) (hany : l.any p = true)
    (hid : ∀ a ∈ l, p a = false → ∀ s, f s a = s) (s s' : β) : l.foldl f s = l.foldl f s' := by
  induction l generalizing s s' with
  | nil => simp at hany
  | cons a l ih =>
      have ha : a ∈ a :: l := List.mem_cons_self
      rw [List.foldl_cons, List.foldl_cons]
      cases hp : p a with
      | true => rw [hover a ha hp s s']
      | false =>
          rw [List.any_cons, hp, Bool.false_or] at hany
          rw [hid a ha hp, hid a ha hp]
          exact ih (fun b hb => hover b (List.mem_cons_of_mem a hb)) hany
            (fun b hb => hid b (List.mem_cons_of_mem a hb)) s s'

theorem foldl_keepLast {f : β → α → β} {l : List α}
    (hover : ∀ a ∈ l, p a = true → ∀ s s', f s a = f s' a)
    (hid : ∀ a ∈ l, p a = false → ∀ s, f s a = s) (s : β) :
    (keepLast p l).foldl f s = l.foldl f s := by
  induction l generalizing s with
  | nil => rfl
  | cons a l ih =>
      have hover' := fun b hb => hover b (List.mem_cons_of_mem a hb)
      have hid' := fun b hb => hid b (List.mem_cons_of_mem a hb)
      by_cases hdropped : p a = true ∧ l.any p = true
      · rw [keepLast_cons_of_dropped hdropped.1 hdropped.2, ih hover' hid', List.foldl_cons]
        exact foldl_eq_of_any hover' hdropped.2 hid' s (f s a)
      · rw [keepLast_cons_of_kept hdropped]
        exact ih hover' hid' (f s a)

/-! ## Order and repetition -/

section Members

variable [DecidableEq α] {f : β → α → β}

/-- An operation that is repeated later and commutes with what stands between is not noticed. -/
theorem foldl_of_mem {l : List α} {a : α} (ha : a ∈ l)
    (hcomm : ∀ b ∈ l, b ≠ a → ∀ s, f (f s a) b = f (f s b) a)
    (hidem : ∀ s, f (f s a) a = f s a) (s : β) : l.foldl f (f s a) = l.foldl f s := by
  induction l generalizing s with
  | nil => cases ha
  | cons b l ih =>
      rw [List.foldl_cons, List.foldl_cons]
      by_cases hb : b = a
      · rw [hb, hidem]
      · rw [hcomm b List.mem_cons_self hb]
        have hmem : a ∈ l := (List.mem_cons.mp ha).resolve_left (Ne.symm hb)
        exact ih hmem (fun c hc => hcomm c (List.mem_cons_of_mem b hc)) (f s b)

theorem foldl_dedup {l : List α}
    (hcomm : ∀ a ∈ l, ∀ b ∈ l, b ≠ a → ∀ s, f (f s a) b = f (f s b) a)
    (hidem : ∀ a ∈ l, 1 < l.count a → ∀ s, f (f s a) a = f s a) (s : β) :
    l.dedup.foldl f s = l.foldl f s := by
  induction l generalizing s with
  | nil => rfl
  | cons a l ih =>
      have ih := ih (fun b hb c hc => hcomm b (List.mem_cons_of_mem a hb) c
        (List.mem_cons_of_mem a hc)) (fun b hb hcount => hidem b (List.mem_cons_of_mem a hb)
          (Nat.lt_of_lt_of_le hcount List.count_le_count_cons))
      by_cases ha : a ∈ l
      · have hcount : 1 < (a :: l).count a := by
          rw [List.count_cons_self]
          exact Nat.succ_lt_succ (List.count_pos_iff.mpr ha)
        rw [List.dedup_cons_of_mem ha, ih, List.foldl_cons]
        exact (foldl_of_mem ha (fun b hb => hcomm a List.mem_cons_self b
          (List.mem_cons_of_mem a hb)) (hidem a List.mem_cons_self hcount) s).symm
      · rw [List.dedup_cons_of_notMem ha]
        exact ih (f s a)

theorem foldl_perm_of_comm {l l' : List α} (h : l.Perm l')
    (hcomm : ∀ a ∈ l, ∀ b ∈ l, b ≠ a → ∀ s, f (f s a) b = f (f s b) a) (s : β) :
    l.foldl f s = l'.foldl f s := by
  induction h generalizing s with
  | nil => rfl
  | cons a _ ih =>
      exact ih (fun b hb c hc => hcomm b (List.mem_cons_of_mem a hb) c
        (List.mem_cons_of_mem a hc)) (f s a)
  | swap a b l =>
      by_cases hab : a = b
      · rw [hab]
      · rw [List.foldl_cons, List.foldl_cons, List.foldl_cons, List.foldl_cons,
          hcomm b List.mem_cons_self a (List.mem_cons_of_mem b List.mem_cons_self) hab]
  | trans h₁ _ ih₁ ih₂ =>
      rw [ih₁ hcomm, ih₂ (fun a ha b hb => hcomm a (h₁.mem_iff.mpr ha) b (h₁.mem_iff.mpr hb))]

/-- Operations that commute and, where they are repeated, do nothing the second time: only
the members of the list count. -/
theorem foldl_eq_of_members {l l' : List α} (hmem : ∀ a, a ∈ l ↔ a ∈ l')
    (hcomm : ∀ a ∈ l, ∀ b ∈ l, b ≠ a → ∀ s, f (f s a) b = f (f s b) a)
    (hidem : ∀ a ∈ l, 1 < l.count a → ∀ s, f (f s a) a = f s a)
    (hidem' : ∀ a ∈ l', 1 < l'.count a → ∀ s, f (f s a) a = f s a) (s : β) :
    l.foldl f s = l'.foldl f s := by
  have hcomm' : ∀ a ∈ l', ∀ b ∈ l', b ≠ a → ∀ s, f (f s a) b = f (f s b) a :=
    fun a ha b hb => hcomm a ((hmem a).mpr ha) b ((hmem b).mpr hb)
  have hperm : l.dedup.Perm l'.dedup := by
    rw [List.perm_ext_iff_of_nodup l.nodup_dedup l'.nodup_dedup]
    intro a
    rw [List.mem_dedup, List.mem_dedup]
    exact hmem a
  calc
    l.foldl f s = l.dedup.foldl f s := (foldl_dedup hcomm hidem s).symm
    _ = l'.dedup.foldl f s := foldl_perm_of_comm hperm (fun a ha b hb =>
      hcomm a (List.mem_dedup.mp ha) b (List.mem_dedup.mp hb)) s
    _ = l'.foldl f s := foldl_dedup hcomm' hidem' s

end Members

end Amed.Folds
