import Mathlib.Data.List.Basic

/-!
# Trying candidates one after another

A search tries its candidates in order until one succeeds. An attempt may change the state
whether it succeeds or not, so a candidate starts in the state that the rejected ones left.
-/

namespace Amed.Search

variable {α σ : Type*}

/-- Try the candidates in order. -/
def tryEach (attempt : α → σ → Bool × σ) : List α → σ → Bool × σ
  | [], s => (false, s)
  | a :: as, s =>
      if (attempt a s).1 then attempt a s else tryEach attempt as (attempt a s).2

variable {attempt : α → σ → Bool × σ}

theorem tryEach_of_accepted {a : α} {s : σ} (as : List α) (h : (attempt a s).1 = true) :
    tryEach attempt (a :: as) s = attempt a s := if_pos h

theorem tryEach_of_rejected {a : α} {s : σ} (as : List α) (h : (attempt a s).1 = false) :
    tryEach attempt (a :: as) s = tryEach attempt as (attempt a s).2 := by
  rw [tryEach, h]
  rfl

/-- Rejected candidates only hand on a state. -/
theorem tryEach_append {as : List α} {s : σ} (bs : List α)
    (h : (tryEach attempt as s).1 = false) :
    tryEach attempt (as ++ bs) s = tryEach attempt bs (tryEach attempt as s).2 := by
  induction as generalizing s with
  | nil => rfl
  | cons a as ih =>
      cases ha : (attempt a s).1 with
      | true =>
          rw [tryEach_of_accepted as ha, ha] at h
          cases h
      | false =>
          rw [tryEach_of_rejected as ha] at h
          rw [List.cons_append, tryEach_of_rejected _ ha, tryEach_of_rejected _ ha, ih h]

/-- What every attempt keeps, the search keeps. -/
theorem tryEach_keeps {I : σ → Prop} {as : List α}
    (h : ∀ a ∈ as, ∀ s, I s → I (attempt a s).2) {s : σ} (hs : I s) :
    I (tryEach attempt as s).2 := by
  induction as generalizing s with
  | nil => exact hs
  | cons a as ih =>
      obtain ⟨ha, has⟩ := List.forall_mem_cons.mp h
      rw [tryEach]
      split
      · exact ha s hs
      · exact ih has (ha s hs)

/-- The candidate that a search accepts, with those it rejects before. -/
structure Accepts (attempt : α → σ → Bool × σ) (as : List α) (s : σ) where
  rejected : List α
  accepted : α
  rest : List α
  split : as = rejected ++ accepted :: rest
  failed : (tryEach attempt rejected s).1 = false
  accepts : (attempt accepted (tryEach attempt rejected s).2).1 = true

theorem Accepts.result {as : List α} {s : σ} (h : Accepts attempt as s) :
    tryEach attempt as s = attempt h.accepted (tryEach attempt h.rejected s).2 := by
  conv_lhs => rw [h.split]
  rw [tryEach_append _ h.failed, tryEach_of_accepted _ h.accepts]

theorem Accepts.mem {as : List α} {s : σ} (h : Accepts attempt as s) : h.accepted ∈ as := by
  have hmem : h.accepted ∈ h.rejected ++ h.accepted :: h.rest :=
    List.mem_append_right _ List.mem_cons_self
  rwa [← h.split] at hmem

/-- Where the rejected candidates leave a state that the accepted one does not tell from the first,
it is as if only the accepted one had been tried. -/
theorem Accepts.result_of_inert {R : σ → σ → Prop} {as : List α} {s : σ}
    (h : Accepts attempt as s) (hrefl : R s s)
    (hinert : ∀ a ∈ h.rejected, ∀ s', R s s' → R s (attempt a s').2)
    (hagree : ∀ s', R s s' → attempt h.accepted s' = attempt h.accepted s) :
    tryEach attempt as s = attempt h.accepted s := by
  rw [h.result]
  exact hagree _ (tryEach_keeps hinert hrefl)

/-- A search that succeeds accepts one of the candidates. -/
theorem accepts_of_tryEach {as : List α} {s : σ} (h : (tryEach attempt as s).1 = true) :
    Nonempty (Accepts attempt as s) := by
  induction as generalizing s with
  | nil => cases h
  | cons a as ih =>
      cases ha : (attempt a s).1 with
      | true => exact ⟨⟨[], a, as, rfl, rfl, ha⟩⟩
      | false =>
          rw [tryEach_of_rejected as ha] at h
          obtain ⟨found⟩ := ih h
          refine ⟨⟨a :: found.rejected, found.accepted, found.rest, ?_, ?_, ?_⟩⟩
          · rw [List.cons_append, ← found.split]
          · rw [tryEach_of_rejected _ ha]
            exact found.failed
          · rw [tryEach_of_rejected _ ha]
            exact found.accepts

/-- Where a predicate on candidates decides every attempt, it decides the search. -/
theorem tryEach_fst {I : σ → Prop} {ok : α → Bool} {as : List α}
    (hok : ∀ a ∈ as, ∀ s, I s → (attempt a s).1 = ok a)
    (hkeep : ∀ a ∈ as, ∀ s, I s → I (attempt a s).2) {s : σ} (hs : I s) :
    (tryEach attempt as s).1 = as.any ok := by
  induction as generalizing s with
  | nil => rfl
  | cons a as ih =>
      obtain ⟨ha, has⟩ := List.forall_mem_cons.mp hok
      obtain ⟨hka, hkas⟩ := List.forall_mem_cons.mp hkeep
      rw [tryEach, List.any_cons]
      cases hoka : ok a with
      | true => rw [if_pos (by rw [ha s hs, hoka]), ha s hs, hoka, Bool.true_or]
      | false =>
          rw [if_neg (by rw [ha s hs, hoka]; decide), ih has hkas (hka s hs), Bool.false_or]

/-- A view of the state, with which every attempt is in step. -/
theorem tryEach_view {τ : Type*} (view : σ → τ) {attempt' : α → τ → Bool × τ} {I : σ → Prop}
    {as : List α}
    (hview : ∀ a ∈ as, ∀ s, I s → attempt' a (view s) = ((attempt a s).1, view (attempt a s).2))
    (hkeep : ∀ a ∈ as, ∀ s, I s → (attempt a s).1 = false → I (attempt a s).2) {s : σ} (hs : I s) :
    tryEach attempt' as (view s) = ((tryEach attempt as s).1, view (tryEach attempt as s).2) := by
  induction as generalizing s with
  | nil => rfl
  | cons a as ih =>
      obtain ⟨ha, has⟩ := List.forall_mem_cons.mp hview
      obtain ⟨hka, hkas⟩ := List.forall_mem_cons.mp hkeep
      rw [tryEach, tryEach, ha s hs]
      cases hok : (attempt a s).1 with
      | true => rw [if_pos rfl, if_pos rfl, hok]
      | false => exact ih has hkas (hka s hs hok)

end Amed.Search
