import Amed.Library.Brackets

/-!
# Delimited lists

Lists that are joined with a separator of two elements, and taken apart again at the separators
that stand outside all brackets.
-/

namespace Delimited

open Brackets

variable {α : Type*}

/-- How many brackets are open behind one more element. -/
def nest (side : α → Side) (depth : Nat) (a : α) : Nat :=
  match side a with
  | .opening => depth + 1
  | .closing => depth - 1
  | .plain => depth

/-- The parts of a list between the separators at depth zero. -/
def pieces [DecidableEq α] (side : α → Side) (x y : α) : Nat → List α → List (List α)
  | _, [] => [[]]
  | _, [a] => [[a]]
  | depth, a :: b :: l =>
      if depth = 0 ∧ a = x ∧ b = y then [] :: pieces side x y 0 l
      else (pieces side x y (nest side depth a) (b :: l)).modifyHead (a :: ·)

/-- What stands before and behind a separator belongs to a matched pair of brackets around it. -/
def Inside (side : α → Side) (x y : α) (before behind : List α) : Prop :=
  ∃ u o l r c v, before = u ++ o :: l ∧ behind = r ++ c :: v ∧ side o = .opening ∧
    side c = .closing ∧ Balanced side (l ++ x :: y :: r)

/-- The separator occurs inside matched brackets only. -/
def Enclosed (side : α → Side) (x y : α) (l : List α) : Prop :=
  ∀ before behind, l = before ++ x :: y :: behind → Inside side x y before behind

variable {side : α → Side} {x y : α}

/-! ## The depth -/

theorem nest_opening {a : α} (h : side a = .opening) (depth : Nat) :
    nest side depth a = depth + 1 := by
  rw [nest, h]

theorem nest_closing {a : α} (h : side a = .closing) (depth : Nat) :
    nest side depth a = depth - 1 := by
  rw [nest, h]

theorem nest_plain {a : α} (h : side a = .plain) (depth : Nat) : nest side depth a = depth := by
  rw [nest, h]

theorem foldl_nest_balanced {l : List α} (h : Balanced side l) (depth : Nat) :
    l.foldl (nest side) depth = depth := by
  induction h generalizing depth with
  | nil => rfl
  | plain ha _ ih => rw [List.foldl_cons, nest_plain ha, ih]
  | pair ho hc _ _ ihl ihr =>
      rw [List.foldl_cons, nest_opening ho, List.foldl_append, ihl, List.foldl_cons,
        nest_closing hc, ihr]
      rfl

/-- A start of a matched list does not rise above where it started. -/
theorem le_foldl_nest {u v : List α} (h : Balanced side (u ++ v)) (depth : Nat) :
    depth ≤ u.foldl (nest side) depth := by
  generalize hw : u ++ v = w at h
  induction h generalizing u v depth with
  | nil =>
      obtain ⟨rfl, -⟩ := List.append_eq_nil_iff.mp hw
      exact Nat.le_refl _
  | @plain a w ha _ ih =>
      obtain ⟨rfl, -⟩ | ⟨u, rfl, rfl⟩ := List.append_eq_cons_iff.mp hw
      · exact Nat.le_refl _
      · rw [List.foldl_cons, nest_plain ha]
        exact ih depth rfl
  | @pair o c l r ho hc hl _ ihl ihr =>
      obtain ⟨rfl, -⟩ | ⟨u, rfl, hu⟩ := List.append_eq_cons_iff.mp hw
      · exact Nat.le_refl _
      rw [List.foldl_cons, nest_opening ho]
      obtain ⟨t, rfl, ht⟩ | ⟨t, rfl, -⟩ := List.append_eq_append_iff.mp hu
      · rw [List.foldl_append, foldl_nest_balanced hl]
        obtain ⟨rfl, -⟩ | ⟨t, rfl, rfl⟩ := List.cons_eq_append_iff.mp ht
        · exact Nat.le_succ depth
        · rw [List.foldl_cons, nest_closing hc]
          exact ihr depth rfl
      · exact Nat.le_of_succ_le (ihl (depth + 1) rfl)

/-- A separator inside brackets does not stand at depth zero. -/
theorem Inside.foldl_ne_zero {before behind : List α} (h : Inside side x y before behind) :
    before.foldl (nest side) 0 ≠ 0 := by
  obtain ⟨u, o, l, r, c, v, rfl, -, ho, -, hl⟩ := h
  have hle := le_foldl_nest hl (u.foldl (nest side) 0 + 1)
  rw [List.foldl_append, List.foldl_cons, nest_opening ho]
  omega

/-! ## Lists without a separator of their own -/

theorem enclosed_of_not_mem {l : List α} (h : x ∉ l) : Enclosed side x y l := by
  rintro before behind rfl
  exact absurd (List.mem_append_right before List.mem_cons_self) h

theorem enclosed_brackets {l : List α} {o c : α} (hx : side x = .plain) (hy : side y = .plain)
    (ho : side o = .opening) (hc : side c = .closing) (hl : Balanced side l) :
    Enclosed side x y (o :: (l ++ [c])) := by
  intro before behind h
  obtain ⟨rfl, h⟩ | ⟨u, rfl, hu⟩ := List.cons_eq_append_iff.mp h
  · obtain ⟨rfl, -⟩ := List.cons.inj h
    rw [hx] at ho
    cases ho
  obtain rfl | ⟨v, a, rfl⟩ := behind.eq_nil_or_concat'
  · obtain ⟨-, hlast⟩ := List.append_inj' (hu.trans (List.append_cons u x [y])) rfl
    cases hlast
    rw [hy] at hc
    cases hc
  · have hcut : l ++ [c] = (u ++ x :: y :: v) ++ [a] := by simpa using hu
    obtain ⟨rfl, hlast⟩ := List.append_inj' hcut rfl
    cases hlast
    exact ⟨[], o, u, v, c, [], rfl, rfl, ho, hc, hl⟩

/-! ## Taking a join apart -/

/-- No separator of a list is at depth zero, when the scan starts at some depth. -/
def Whole (side : α → Side) (x y : α) (depth : Nat) (l : List α) : Prop :=
  ∀ before behind, l = before ++ x :: y :: behind → before.foldl (nest side) depth ≠ 0

theorem Enclosed.whole {l : List α} (h : Enclosed side x y l) : Whole side x y 0 l :=
  fun before behind hl => (h before behind hl).foldl_ne_zero

theorem Whole.tail {depth : Nat} {a : α} {l : List α} (h : Whole side x y depth (a :: l)) :
    Whole side x y (nest side depth a) l := by
  rintro before behind rfl
  exact h (a :: before) behind rfl

theorem Whole.head {depth : Nat} {a : α} {l : List α} (h : Whole side x y depth (a :: l)) :
    ¬ (depth = 0 ∧ a = x ∧ l.head? = some y) := by
  rintro ⟨hdepth, rfl, hhead⟩
  obtain ⟨l, rfl⟩ := List.head?_eq_some_iff.mp hhead
  exact h [] l rfl hdepth

section Pieces

variable [DecidableEq α]

theorem pieces_cons {depth : Nat} {a : α} {l : List α}
    (h : ¬ (depth = 0 ∧ a = x ∧ l.head? = some y)) :
    pieces side x y depth (a :: l) =
      (pieces side x y (nest side depth a) l).modifyHead (a :: ·) := by
  cases l with
  | nil => rfl
  | cons b l =>
      rw [pieces, if_neg]
      rintro ⟨hdepth, ha, hb⟩
      exact h ⟨hdepth, ha, congrArg some hb⟩

theorem pieces_separator (l : List α) :
    pieces side x y 0 (x :: y :: l) = [] :: pieces side x y 0 l := by
  rw [pieces, if_pos ⟨rfl, rfl, rfl⟩]

theorem Whole.pieces_eq {depth : Nat} {l : List α} (h : Whole side x y depth l) :
    pieces side x y depth l = [l] := by
  induction l generalizing depth with
  | nil => rfl
  | cons a l ih =>
      rw [pieces_cons h.head, ih h.tail]
      rfl

/-- The first piece ends where a separator follows at depth zero. -/
theorem Whole.pieces_append {depth : Nat} {l : List α} (h : Whole side x y depth l)
    (hne : x ≠ y) (hback : l.foldl (nest side) depth = 0) (rest : List α) :
    pieces side x y depth (l ++ x :: y :: rest) = l :: pieces side x y 0 rest := by
  induction l generalizing depth with
  | nil =>
      obtain rfl : depth = 0 := hback
      exact pieces_separator rest
  | cons a l ih =>
      rw [List.cons_append, pieces_cons, ih h.tail hback]
      · rfl
      rintro ⟨hdepth, ha, hhead⟩
      cases l with
      | nil => exact hne (Option.some.inj hhead)
      | cons b l => exact h.head ⟨hdepth, ha, hhead⟩

/-- Lists whose brackets are matched and enclose all their separators are what the join of them
is taken apart into. -/
theorem pieces_intercalate (hne : x ≠ y) {ls : List (List α)} (hls : ls ≠ [])
    (h : ∀ l ∈ ls, Balanced side l ∧ Enclosed side x y l) :
    pieces side x y 0 ([x, y].intercalate ls) = ls := by
  induction ls with
  | nil => exact absurd rfl hls
  | cons l ls ih =>
      obtain ⟨hbalanced, henclosed⟩ := h l List.mem_cons_self
      cases ls with
      | nil =>
          rw [List.intercalate_singleton]
          exact henclosed.whole.pieces_eq
      | cons l' ls =>
          have hrest := ih (List.cons_ne_nil l' ls) fun m hm => h m (List.mem_cons_of_mem l hm)
          rw [List.intercalate_cons_cons, List.append_assoc, List.cons_append, List.cons_append,
            List.nil_append,
            henclosed.whole.pieces_append hne (foldl_nest_balanced hbalanced 0), hrest]

/-- Two such lists of lists with the same join are the same. -/
theorem intercalate_inj (hne : x ≠ y) {ls ms : List (List α)} (hls : ls ≠ []) (hms : ms ≠ [])
    (hl : ∀ l ∈ ls, Balanced side l ∧ Enclosed side x y l)
    (hm : ∀ l ∈ ms, Balanced side l ∧ Enclosed side x y l)
    (h : [x, y].intercalate ls = [x, y].intercalate ms) : ls = ms :=
  calc
    ls = pieces side x y 0 ([x, y].intercalate ls) := (pieces_intercalate hne hls hl).symm
    _ = ms := by rw [h, pieces_intercalate hne hms hm]

end Pieces

end Delimited
