import Mathlib.Logic.Relation

/-!
# The calls of a recursion

A recursion is given by the list of calls that each call makes. It ends when the call it starts with
is accessible. A rank that falls with every call that is reached makes it so, and a call that comes
back to itself never is.
-/

namespace Amed.Calls

open Relation

variable {α : Type*} (calls : α → List α)

/-- A call is made by another one. -/
def MadeBy (c' c : α) : Prop := c' ∈ calls c

/-- A call is reached from another one. -/
def Reaches (root : α) : α → Prop := ReflTransGen (fun c c' => MadeBy calls c' c) root

/-- A call comes back to itself. -/
def Returns (c : α) : Prop := TransGen (fun c c' => MadeBy calls c' c) c c

variable {calls} {root c c' : α}

theorem Reaches.call (h : Reaches calls root c) (hc : c' ∈ calls c) : Reaches calls root c' :=
  ReflTransGen.tail h hc

theorem Returns.once (h : c ∈ calls c) : Returns calls c := TransGen.single h

theorem Returns.twice (h : c' ∈ calls c) (h' : c ∈ calls c') : Returns calls c :=
  TransGen.tail (TransGen.single h) h'

/-- A call that is reached from an accessible one is accessible. -/
theorem acc_of_reaches (h : Acc (MadeBy calls) root) (hc : Reaches calls root c) :
    Acc (MadeBy calls) c := by
  induction hc with
  | refl => exact h
  | tail _ hcall ih => exact ih.inv hcall

/-- An accessible call does not come back. -/
theorem not_returns_of_acc (h : Acc (MadeBy calls) c) : ¬Returns calls c := by
  induction h with
  | intro c _ ih =>
      intro hreturns
      obtain ⟨d, hcall, hrest⟩ := TransGen.head'_iff.mp hreturns
      exact ih d hcall (TransGen.tail' hrest hcall)

/-- A rank that falls with every call that is reached. -/
theorem acc_of_rank (rank : α → Nat)
    (h : ∀ c, Reaches calls root c → ∀ c' ∈ calls c, rank c' < rank c) :
    Acc (MadeBy calls) root := by
  have hall : ∀ n c, Reaches calls root c → rank c < n → Acc (MadeBy calls) c := by
    intro n
    induction n with
    | zero => exact fun c _ hlt => absurd hlt (Nat.not_lt_zero _)
    | succ n ih =>
        intro c hc hlt
        refine Acc.intro c fun c' hcall => ih c' (hc.call hcall) ?_
        exact Nat.lt_of_lt_of_le (h c hc c' hcall) (Nat.le_of_lt_succ hlt)
  exact hall _ root ReflTransGen.refl (Nat.lt_succ_self _)

/-- One bound for the bounds of finitely many calls. -/
theorem exists_bound {P : α → Nat → Prop} (hmono : ∀ c m n, m ≤ n → P c m → P c n) (cs : List α)
    (h : ∀ c ∈ cs, ∃ n, P c n) : ∃ n, ∀ c ∈ cs, P c n := by
  induction cs with
  | nil => exact ⟨0, fun _ hc => nomatch hc⟩
  | cons c cs ih =>
      obtain ⟨⟨m, hm⟩, hrest⟩ := List.forall_mem_cons.mp h
      obtain ⟨n, hn⟩ := ih hrest
      refine ⟨max m n, List.forall_mem_cons.mpr ⟨?_, fun c' hc' => ?_⟩⟩
      · exact hmono c m _ (Nat.le_max_left m n) hm
      · exact hmono c' n _ (Nat.le_max_right m n) (hn c' hc')

end Amed.Calls
