import Mathlib.Data.List.Basic

/-!
# Selecting a best match

A search among candidates returns the index of a match of the highest rank, whenever there is
a match at all. Narrowing the candidates is sound as long as no match is dropped.
-/

namespace Amed.Selection

variable {α ι : Type*}

/-- `r` is the index of a match of the highest rank, if there is a match; else it may be the index
of any candidate or nothing. -/
structure Selects (Matches : α → Prop) (rank : α → Nat) (index : α → ι) (xs : List α)
    (r : Option ι) : Prop where
  sound : ∀ i, r = some i → ∃ a ∈ xs, index a = i
  complete : (∃ a ∈ xs, Matches a) →
    ∃ a ∈ xs, Matches a ∧ r = some (index a) ∧ ∀ b ∈ xs, Matches b → rank b ≤ rank a

variable {Matches : α → Prop} {rank : α → Nat} {index : α → ι} {xs ys : List α} {r : Option ι}

/-- The search may go on among fewer candidates that still hold every match. -/
theorem Selects.narrow (h : Selects Matches rank index ys r) (hsub : ∀ a ∈ ys, a ∈ xs)
    (hkeep : ∀ a ∈ xs, Matches a → a ∈ ys) : Selects Matches rank index xs r := by
  constructor
  · intro i hi
    obtain ⟨a, ha, hindex⟩ := h.sound i hi
    exact ⟨a, hsub a ha, hindex⟩
  · rintro ⟨a, ha, hm⟩
    obtain ⟨b, hb, hmb, hr, hbest⟩ := h.complete ⟨a, hkeep a ha hm, hm⟩
    exact ⟨b, hsub b hb, hmb, hr, fun c hc hmc => hbest c (hkeep c hc hmc) hmc⟩

/-- Without a match the search may return nothing. -/
theorem Selects.none (h : ∀ a ∈ xs, ¬Matches a) : Selects Matches rank index xs none := by
  constructor
  · intro i hi
    cases hi
  · rintro ⟨a, ha, hm⟩
    exact absurd hm (h a ha)

/-- A match of the highest rank may be returned at once. -/
theorem Selects.best {a : α} (ha : a ∈ xs) (hm : Matches a) (hbest : ∀ b ∈ xs, rank b ≤ rank a) :
    Selects Matches rank index xs (some (index a)) := by
  constructor
  · intro i hi
    exact ⟨a, ha, Option.some.inj hi⟩
  · intro _
    exact ⟨a, ha, hm, rfl, fun b hb _ => hbest b hb⟩

/-- A candidate that is left alone is the match. -/
theorem Selects.singleton (a : α) : Selects Matches rank index [a] (some (index a)) := by
  constructor
  · intro i hi
    exact ⟨a, List.mem_singleton.mpr rfl, Option.some.inj hi⟩
  · rintro ⟨b, hb, hm⟩
    cases List.mem_singleton.mp hb
    refine ⟨a, List.mem_singleton.mpr rfl, hm, rfl, fun c hc _ => ?_⟩
    cases List.mem_singleton.mp hc
    exact Nat.le_refl _

end Amed.Selection
