import Mathlib.Data.List.Basic

/-!
# Brackets

A pass over a list that keeps a stack of the brackets that are still open. A closing bracket
takes the top of the stack away, and nothing where the stack is empty. The stack says what is
matched with what: its top is the bracket behind which everything is matched.
-/

namespace Brackets

/-- What an element is in a matching. -/
inductive Side
  | opening | closing | plain
  deriving DecidableEq

variable {α : Type*} (side : α → Side)

/-- The lists whose brackets are all matched. -/
inductive Balanced : List α → Prop
  | nil : Balanced []
  | plain {a : α} {l : List α} : side a = .plain → Balanced l → Balanced (a :: l)
  | pair {o c : α} {l r : List α} : side o = .opening → side c = .closing → Balanced l →
      Balanced r → Balanced (o :: (l ++ c :: r))

/-- The stack behind one more element: of each bracket still open what stands before it. -/
def push (before : List α) (stack : List (List α)) (a : α) : List (List α) :=
  match side a with
  | .opening => before :: stack
  | .closing => stack.tail
  | .plain => stack

/-- The brackets still open behind a list, the last one on top. -/
def unmatched (l : List α) : List (List α) :=
  (l.foldl (fun s a => (s.1 ++ [a], push side s.1 s.2 a)) ([], [])).2

variable {side}

theorem foldl_push_fst (l before : List α) (stack : List (List α)) :
    (l.foldl (fun s a => (s.1 ++ [a], push side s.1 s.2 a)) (before, stack)).1 = before ++ l := by
  induction l generalizing before stack with
  | nil => exact (List.append_nil before).symm
  | cons a l ih =>
      rw [List.foldl_cons, ih, List.append_assoc]
      rfl

@[simp] theorem unmatched_nil : unmatched side [] = [] := rfl

theorem unmatched_concat (l : List α) (a : α) :
    unmatched side (l ++ [a]) = push side l (unmatched side l) a := by
  unfold unmatched
  rw [List.foldl_append, List.foldl_cons, List.foldl_nil, foldl_push_fst, List.nil_append]

theorem unmatched_opening {l : List α} {a : α} (h : side a = .opening) :
    unmatched side (l ++ [a]) = l :: unmatched side l := by
  rw [unmatched_concat, push, h]

theorem unmatched_closing {l : List α} {a : α} (h : side a = .closing) :
    unmatched side (l ++ [a]) = (unmatched side l).tail := by
  rw [unmatched_concat, push, h]

theorem unmatched_plain {l : List α} {a : α} (h : side a = .plain) :
    unmatched side (l ++ [a]) = unmatched side l := by
  rw [unmatched_concat, push, h]

namespace Balanced

theorem append {l r : List α} (hl : Balanced side l) (hr : Balanced side r) :
    Balanced side (l ++ r) := by
  induction hl with
  | nil => exact hr
  | plain h _ ih => exact .plain h ih
  | @pair o c l₁ l₂ ho hc h₁ _ _ ih₂ =>
      rw [List.cons_append, List.append_assoc, List.cons_append]
      exact .pair ho hc h₁ ih₂

theorem concat {l : List α} {a : α} (hl : Balanced side l) (ha : side a = .plain) :
    Balanced side (l ++ [a]) := hl.append (.plain ha .nil)

/-- A matched list leaves the stack as it is. -/
theorem unmatched_append {r : List α} (hr : Balanced side r) (l : List α) :
    unmatched side (l ++ r) = unmatched side l := by
  induction hr generalizing l with
  | nil => rw [List.append_nil]
  | @plain a r ha _ ih =>
      rw [List.append_cons, ih, unmatched_plain ha]
  | @pair o c r₁ r₂ ho hc _ _ ih₁ ih₂ =>
      calc
        unmatched side (l ++ o :: (r₁ ++ c :: r₂)) =
            unmatched side (l ++ [o] ++ r₁ ++ [c] ++ r₂) := by simp
        _ = unmatched side (l ++ [o] ++ r₁ ++ [c]) := ih₂ _
        _ = (unmatched side (l ++ [o] ++ r₁)).tail := unmatched_closing hc
        _ = (l :: unmatched side l).tail := by rw [ih₁, unmatched_opening ho]
        _ = unmatched side l := rfl

theorem congr {side' : α → Side} {l : List α} (h : Balanced side l)
    (hside : ∀ a ∈ l, side' a = side a) : Balanced side' l := by
  induction h with
  | nil => exact .nil
  | @plain a l ha _ ih =>
      refine .plain ((hside a List.mem_cons_self).trans ha) (ih fun x hx => ?_)
      exact hside x (List.mem_cons_of_mem a hx)
  | @pair o c l r ho hc _ _ ihl ihr =>
      refine .pair ((hside o (by simp)).trans ho) ((hside c (by simp)).trans hc)
        (ihl fun x hx => ?_) (ihr fun x hx => ?_)
      · exact hside x (by simp [hx])
      · exact hside x (by simp [hx])

/-- An opening bracket has its closing one behind it. -/
theorem closes {u v : List α} {a : α} (h : Balanced side (u ++ a :: v))
    (ha : side a = .opening) :
    ∃ b c w, v = b ++ c :: w ∧ side c = .closing ∧ Balanced side b := by
  generalize hw : u ++ a :: v = w at h
  induction h generalizing u v with
  | nil => simp at hw
  | @plain x w hx _ ih =>
      obtain ⟨rfl, hw⟩ | ⟨u, rfl, rfl⟩ := List.append_eq_cons_iff.mp hw
      · cases hw
        rw [ha] at hx
        cases hx
      · exact ih rfl
  | @pair o c l r ho hc hl hr ihl ihr =>
      obtain ⟨rfl, hw⟩ | ⟨u, rfl, hu⟩ := List.append_eq_cons_iff.mp hw
      · cases hw
        exact ⟨l, c, r, rfl, hc, hl⟩
      obtain ⟨y, rfl, hy⟩ | ⟨y, rfl, hy⟩ := List.append_eq_append_iff.mp hu
      · obtain ⟨rfl, hy⟩ | ⟨y, rfl, rfl⟩ := List.cons_eq_append_iff.mp hy
        · cases hy
          rw [ha] at hc
          cases hc
        · exact ihr rfl
      · obtain ⟨rfl, hy⟩ | ⟨y, rfl, rfl⟩ := List.cons_eq_append_iff.mp hy
        · cases hy
          rw [ha] at hc
          cases hc
        · obtain ⟨b, c', w, rfl, hc', hb⟩ := ihl rfl
          exact ⟨b, c', w ++ c :: r, by simp, hc', hb⟩

theorem countP_eq {l : List α} (h : Balanced side l) :
    l.countP (side · = .closing) = l.countP (side · = .opening) := by
  induction h with
  | nil => rfl
  | plain ha _ ih => simp [ha, ih]
  | pair ho hc _ _ ihl ihr =>
      simp only [List.countP_cons, List.countP_append, ho, hc, ihl, ihr]
      simp
      omega

/-- No start of a matched list closes more brackets than it opens. -/
theorem countP_le {u v : List α} (h : Balanced side (u ++ v)) :
    u.countP (side · = .closing) ≤ u.countP (side · = .opening) := by
  generalize hw : u ++ v = w at h
  induction h generalizing u v with
  | nil =>
      obtain ⟨rfl, -⟩ := List.append_eq_nil_iff.mp hw
      exact Nat.le_refl _
  | @plain x w hx _ ih =>
      obtain ⟨rfl, -⟩ | ⟨u, rfl, rfl⟩ := List.append_eq_cons_iff.mp hw
      · exact Nat.le_refl _
      · simpa [List.countP_cons, hx] using ih rfl
  | @pair o c l r ho hc hl _ ihl ihr =>
      obtain ⟨rfl, -⟩ | ⟨u, rfl, hu⟩ := List.append_eq_cons_iff.mp hw
      · exact Nat.le_refl _
      obtain ⟨y, rfl, hy⟩ | ⟨y, rfl, -⟩ := List.append_eq_append_iff.mp hu
      · have hcount := hl.countP_eq
        obtain ⟨rfl, -⟩ | ⟨y, rfl, rfl⟩ := List.cons_eq_append_iff.mp hy
        · simp [ho]
          omega
        · have hrest := ihr rfl
          simp [ho, hc]
          omega
      · have hinner := ihl rfl
        simp [ho]
        omega

end Balanced

/-- The top of the stack is the last bracket behind which everything is matched. -/
theorem unmatched_eq_cons_iff {l before : List α} {stack : List (List α)} :
    unmatched side l = before :: stack ↔
      ∃ o b, l = before ++ o :: b ∧ side o = .opening ∧ Balanced side b ∧
        unmatched side before = stack := by
  constructor
  · intro h
    induction hn : l.length using Nat.strongRecOn generalizing l before stack with
    | ind n ih =>
      subst hn
      obtain rfl | ⟨l, a, rfl⟩ := l.eq_nil_or_concat'
      · cases h
      · have hshort : l.length < (l ++ [a]).length := by simp
        cases ha : side a with
        | opening =>
            rw [unmatched_opening ha] at h
            cases h
            exact ⟨a, [], rfl, ha, .nil, rfl⟩
        | plain =>
            rw [unmatched_plain ha] at h
            obtain ⟨o, b, rfl, ho, hb, hstack⟩ := ih _ hshort h rfl
            exact ⟨o, b ++ [a], by simp, ho, hb.concat ha, hstack⟩
        | closing =>
            rw [unmatched_closing ha] at h
            cases hl : unmatched side l with
            | nil =>
                rw [hl] at h
                cases h
            | cons inner outer =>
                rw [hl] at h
                -- the closed bracket, and the one that was open around it
                obtain ⟨o, b, rfl, ho, hb, hinner⟩ := ih _ hshort hl rfl
                obtain ⟨o', b', rfl, ho', hb', hstack⟩ :=
                  ih _ (by simp) (hinner.trans h) rfl
                refine ⟨o', b' ++ o :: (b ++ [a]), by simp, ho', ?_, hstack⟩
                exact hb'.append (.pair ho ha hb .nil)
  · rintro ⟨o, b, rfl, ho, hb, rfl⟩
    rw [List.append_cons, hb.unmatched_append, unmatched_opening ho]

end Brackets
