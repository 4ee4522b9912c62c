import Mathlib.Data.List.Basic
import Mathlib.Data.Fintype.EquivFin
import Amed.Library.Search

/-!
# Reading what was last written

A tracker goes through accesses to registers. It remembers one register, the last one that was
written, and whether an access has read the register it remembers. A computation that carries a
tracker in its state and does not look at it follows it: the rest is the same whatever the tracker
remembers.
-/

namespace Amed.LastWrite

/-- An access to a register. -/
structure Access (ρ : Type*) where
  register : ρ
  reads : Bool
  writes : Bool
  deriving DecidableEq

/-- The register that was written last, and whether it was read. -/
structure Tracker (ρ : Type*) where
  last : ρ
  seen : Bool

variable {ρ : Type*}

/-- The last register that is written. -/
def lastWritten : List (Access ρ) → Option ρ :=
  List.foldl (fun last a => if a.writes then some a.register else last) none

theorem lastWritten_concat (as : List (Access ρ)) (a : Access ρ) :
    lastWritten (as ++ [a]) = if a.writes then some a.register else lastWritten as := by
  rw [lastWritten, List.foldl_append]
  rfl

section Tracking

variable [DecidableEq ρ]

/-- One access; a write counts for the access itself. -/
def Tracker.access (t : Tracker ρ) (a : Access ρ) : Tracker ρ :=
  let last := if a.writes then a.register else t.last
  ⟨last, t.seen || (a.reads && decide (last = a.register))⟩

def Tracker.run (t : Tracker ρ) (as : List (Access ρ)) : Tracker ρ := as.foldl Tracker.access t

@[simp] theorem Tracker.run_nil (t : Tracker ρ) : t.run [] = t := rfl

@[simp] theorem Tracker.run_singleton (t : Tracker ρ) (a : Access ρ) : t.run [a] = t.access a := rfl

@[simp] theorem Tracker.run_append (t : Tracker ρ) (as bs : List (Access ρ)) :
    t.run (as ++ bs) = (t.run as).run bs :=
  List.foldl_append

theorem Tracker.run_last (t : Tracker ρ) (as : List (Access ρ)) :
    (t.run as).last = (lastWritten as).getD t.last := by
  induction as using List.reverseRecOn with
  | nil => rfl
  | append_singleton as a ih =>
      rw [run_append, run_singleton, lastWritten_concat, access, ih]
      dsimp only
      split <;> rfl

end Tracking

/-- An access reads the register that is written last up to it. -/
def ReadsBack (as : List (Access ρ)) : Prop :=
  ∃ before a after, as = before ++ a :: after ∧ a.reads = true ∧
    lastWritten (before ++ [a]) = some a.register

/-- An access reads a register before any is written. -/
def ReadsEarly (as : List (Access ρ)) (r : ρ) : Prop :=
  ∃ before a after, as = before ++ a :: after ∧ a.reads = true ∧
    lastWritten (before ++ [a]) = none ∧ a.register = r

/-- A register is both written and read. -/
def Overlaps (as : List (Access ρ)) : Prop :=
  ∃ a ∈ as, ∃ b ∈ as, a.writes = true ∧ b.reads = true ∧ a.register = b.register

/-- A place in a list and one more is a place in the list, or the last one. -/
theorem exists_split_concat {α : Type*} {Q : List α → α → Prop} (as : List α) (x : α) :
    (∃ before a after, as ++ [x] = before ++ a :: after ∧ Q before a) ↔
      (∃ before a after, as = before ++ a :: after ∧ Q before a) ∨ Q as x := by
  constructor
  · rintro ⟨before, a, after, hsplit, hQ⟩
    induction after using List.reverseRecOn with
    | nil =>
        obtain ⟨rfl, hx⟩ := List.append_inj' hsplit rfl
        cases hx
        exact Or.inr hQ
    | append_singleton after y _ =>
        have hsplit' : as ++ [x] = (before ++ a :: after) ++ [y] := by
          rw [hsplit, List.append_assoc, List.cons_append]
        obtain ⟨rfl, -⟩ := List.append_inj' hsplit' rfl
        exact Or.inl ⟨before, a, after, rfl, hQ⟩
  · rintro (⟨before, a, after, rfl, hQ⟩ | hQ)
    · exact ⟨before, a, after ++ [x], by rw [List.append_assoc, List.cons_append], hQ⟩
    · exact ⟨as, x, [], rfl, hQ⟩

section Seen

variable [DecidableEq ρ]

/-- What the tracker has seen. -/
theorem Tracker.run_seen_iff (r : ρ) (as : List (Access ρ)) :
    (Tracker.run ⟨r, false⟩ as).seen = true ↔ ReadsBack as ∨ ReadsEarly as r := by
  induction as using List.reverseRecOn with
  | nil => simp [ReadsBack, ReadsEarly]
  | append_singleton as a ih =>
      have hback := exists_split_concat (Q := fun before a => a.reads = true ∧
        lastWritten (before ++ [a]) = some a.register) as a
      have hearly := exists_split_concat (Q := fun before a => a.reads = true ∧
        lastWritten (before ++ [a]) = none ∧ a.register = r) as a
      have hlast := Tracker.run_last ⟨r, false⟩ (as ++ [a])
      rw [run_append, run_singleton, access] at hlast ⊢
      dsimp only at hlast ⊢
      rw [ReadsBack, ReadsEarly, hback, hearly, Bool.or_eq_true, ih, hlast, Bool.and_eq_true,
        decide_eq_true_eq]
      rw [ReadsBack, ReadsEarly]
      cases hwritten : lastWritten (as ++ [a]) with
      | none =>
          rw [Option.getD_none]
          simp only [reduceCtorEq, and_false, or_false, true_and, eq_comm (a := r), or_assoc]
      | some r' =>
          rw [Option.getD_some]
          simp only [reduceCtorEq, false_and, and_false, or_false, Option.some.injEq]
          exact or_right_comm

/-- Whatever register is remembered at first, the tracker sees just what `O` says. -/
theorem Tracker.forall_initial_iff [Infinite ρ] (as : List (Access ρ)) (O : Prop) :
    (∀ r, (Tracker.run ⟨r, false⟩ as).seen = true ↔ O) ↔
      O ∧ ReadsBack as ∨ ¬O ∧ ¬ReadsBack as ∧ ∀ r, ¬ReadsEarly as r := by
  simp only [run_seen_iff]
  -- a register that no access reads
  obtain ⟨fresh, hfresh⟩ := Infinite.exists_notMem_finset (as.map Access.register).toFinset
  have hnever : ¬ReadsEarly as fresh := by
    rintro ⟨before, a, after, rfl, -, -, hregister⟩
    exact hfresh (by simp [hregister])
  constructor
  · intro h
    by_cases hO : O
    · exact Or.inl ⟨hO, ((h fresh).mpr hO).resolve_right hnever⟩
    · exact Or.inr ⟨hO, fun hback => hO ((h fresh).mp (Or.inl hback)),
        fun r hearly => hO ((h r).mp (Or.inr hearly))⟩
  · rintro (⟨hO, hback⟩ | ⟨hO, hback, hearly⟩) r
    · exact iff_of_true (Or.inl hback) hO
    · exact iff_of_false (not_or.mpr ⟨hback, hearly r⟩) hO

end Seen

/-! ## Computations that carry a tracker -/

/-- The accesses of items that are gone through up to one that ends it. -/
def accessesUpTo {α : Type*} (accesses : α → List (Access ρ)) (last : α → Bool) :
    List α → List (Access ρ)
  | [] => []
  | a :: as => accesses a ++ if last a then [] else accessesUpTo accesses last as

section Follows

variable {σ κ : Type*} [DecidableEq ρ] (track : σ → Tracker ρ → κ → σ)

/-- The tracker goes through the accesses, and the rest goes on beside it. -/
def Follows (f : σ → Bool × σ) (s : σ) (as : List (Access ρ)) : Prop :=
  ∀ t c, f (track s t c) = ((f s).1, track (f s).2 (t.run as) c)

/-- Another member of the state may depend on the tracker. -/
def FollowsUp (f : σ → Bool × σ) (s : σ) (as : List (Access ρ)) : Prop :=
  ∀ t c, ∃ c', f (track s t c) = ((f s).1, track (f s).2 (t.run as) c')

variable {track}

/-- Going on after a success. -/
theorem Follows.next {f next : σ → Bool × σ} {s : σ} {as bs : List (Access ρ)}
    (hf : Follows track f s as) (hnext : Follows track next (f s).2 bs) :
    Follows track (fun s => if (f s).1 then next (f s).2 else f s) s
      (as ++ if (f s).1 then bs else []) := by
  intro t c
  dsimp only
  rw [hf t c]
  cases hok : (f s).1 with
  | true => rw [if_pos rfl, if_pos rfl, if_pos rfl, hnext, Tracker.run_append]
  | false =>
      rw [if_neg Bool.false_ne_true, if_neg Bool.false_ne_true, if_neg Bool.false_ne_true,
        List.append_nil, hok]

/-- What goes on does not access anything. -/
theorem Follows.next_nil {f next : σ → Bool × σ} {s : σ} {as : List (Access ρ)}
    (hf : Follows track f s as) (hnext : Follows track next (f s).2 []) :
    Follows track (fun s => if (f s).1 then next (f s).2 else f s) s as := by
  have hboth := hf.next hnext
  rwa [ite_self, List.append_nil] at hboth

open Search in
/-- Candidates that are tried one after another. -/
theorem followsUp_tryEach {α : Type*} {attempt : α → σ → Bool × σ} {I : σ → Prop}
    {accesses : α → List (Access ρ)} {ok : α → Bool}
    (hok : ∀ a s, I s → (attempt a s).1 = ok a)
    (hkeep : ∀ a s, I s → ok a = false → I (attempt a s).2)
    (hfollows : ∀ a s, I s → FollowsUp track (attempt a) s (accesses a))
    {as : List α} {s : σ} (hs : I s) :
    FollowsUp track (tryEach attempt as) s (accessesUpTo accesses ok as) := by
  induction as generalizing s with
  | nil => exact fun t c => ⟨c, rfl⟩
  | cons a as ih =>
      intro t c
      obtain ⟨c', hattempt⟩ := hfollows a s hs t c
      rw [accessesUpTo, ← hok a s hs, tryEach, tryEach, hattempt, Tracker.run_append]
      dsimp only
      cases hfst : (attempt a s).1 with
      | true =>
          rw [if_pos rfl, if_pos rfl, if_pos rfl, Tracker.run_nil, hfst]
          exact ⟨c', rfl⟩
      | false =>
          rw [if_neg Bool.false_ne_true, if_neg Bool.false_ne_true, if_neg Bool.false_ne_true]
          exact ih (hkeep a s hs ((hok a s hs).symm.trans hfst)) _ _

end Follows

end Amed.LastWrite
