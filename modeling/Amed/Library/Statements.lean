import Mathlib.Data.List.Sort

/-!
# Statements

Returns, ifs and switches. A switch goes on behind the label of its value, falls through the cases
below and is left by a break. Statements assign nothing: conditions and values are those of one
state throughout.
-/

namespace Amed.Statements

/-- What a statement does: it runs to its end, breaks or returns. -/
inductive Outcome (R : Type*)
  | fell
  | broke
  | returned (r : R)
  deriving DecidableEq, Repr

namespace Outcome

variable {R : Type*}

/-- The next statement only runs where this one runs to its end. -/
def andThen : Outcome R → Outcome R → Outcome R
  | fell, next => next
  | broke, _ => broke
  | returned r, _ => returned r

/-- A break ends the switch it stands in. -/
def leave : Outcome R → Outcome R
  | fell => fell
  | broke => fell
  | returned r => returned r

/-- A search that returns what it finds. -/
def ofOption : Option R → Outcome R
  | none => fell
  | some r => returned r

/-- What a function with a last `return` returns. -/
def valueOr (last : R) : Outcome R → R
  | fell => last
  | broke => last
  | returned r => r

@[simp] theorem leave_andThen_ofOption (found : Option R) :
    ((ofOption found).andThen broke).leave = ofOption found := by
  cases found <;> rfl

@[simp] theorem andThen_ofOption (last : R) (found : Option R) :
    (ofOption found).andThen (returned last) = returned (found.getD last) := by
  cases found <;> rfl

end Outcome

/-- Statements over conditions `C`, integer expressions `E` and results `R`. -/
inductive Stmt (C E R : Type)
  | skip
  | seq (first next : Stmt C E R)
  | ret (r : R)
  | brk
  | ifElse (cond : C) (yes no : Stmt C E R)
  | switch (value : E) (cases : List (Int × Stmt C E R))

namespace Stmt

variable {C E R : Type}

section Exec

variable (holds : C → Bool) (valueOf : E → Int)

mutual

def exec : Stmt C E R → Outcome R
  | skip => .fell
  | seq first next => (exec first).andThen (exec next)
  | ret r => .returned r
  | brk => .broke
  | ifElse cond yes no => if holds cond then exec yes else exec no
  | switch value cases => (jump (valueOf value) cases).leave

/-- Look for the label. -/
def jump (v : Int) : List (Int × Stmt C E R) → Outcome R
  | [] => .fell
  | (label, body) :: cases =>
      if label = v then (exec body).andThen (fallThrough cases) else jump v cases

/-- Run the cases one after the other. -/
def fallThrough : List (Int × Stmt C E R) → Outcome R
  | [] => .fell
  | (_, body) :: cases => (exec body).andThen (fallThrough cases)

end

/-- Behind a statement that does not run to its end nothing runs. -/
theorem andThen_of_ne_fell {o : Outcome R} (h : o ≠ .fell) (next : Outcome R) :
    o.andThen next = o := by
  cases o with
  | fell => exact absurd rfl h
  | broke => rfl
  | returned r => rfl

/-- Where no case runs to its end, only the case of the value runs. -/
theorem jump_of_ne_fell {cases : List (Int × Stmt C E R)}
    (h : ∀ c ∈ cases, exec holds valueOf c.2 ≠ .fell) (v : Int) :
    jump holds valueOf v cases =
      (cases.find? fun c => c.1 = v).elim .fell fun c => exec holds valueOf c.2 := by
  induction cases with
  | nil => rfl
  | cons c cases ih =>
      obtain ⟨hc, hcases⟩ := List.forall_mem_cons.mp h
      change jump holds valueOf v ((c.1, c.2) :: cases) = _
      by_cases hv : c.1 = v
      · rw [jump, if_pos hv, andThen_of_ne_fell hc, List.find?_cons_of_pos (by simpa)]
        rfl
      · rw [jump, if_neg hv, ih hcases, List.find?_cons_of_neg (by simpa)]

end Exec

/-- Cases that all end in a break. -/
def broken (cases : List (Int × Stmt C E R)) : List (Int × Stmt C E R) :=
  cases.map fun c => (c.1, .seq c.2 .brk)

theorem exec_seq_brk_ne_fell (holds : C → Bool) (valueOf : E → Int) (s : Stmt C E R) :
    exec holds valueOf (.seq s .brk) ≠ .fell := by
  rw [exec, exec]
  cases exec holds valueOf s <;> simp [Outcome.andThen]

theorem exec_switch_broken (holds : C → Bool) (valueOf : E → Int) (value : E)
    (cases : List (Int × Stmt C E R)) :
    exec holds valueOf (.switch value (broken cases)) =
      (cases.find? fun c => c.1 = valueOf value).elim .fell
        fun c => ((exec holds valueOf c.2).andThen .broke).leave := by
  have hstops : ∀ c ∈ broken cases, exec holds valueOf c.2 ≠ .fell := by
    intro c hc
    obtain ⟨c', -, rfl⟩ := List.mem_map.mp hc
    exact exec_seq_brk_ne_fell holds valueOf c'.2
  rw [exec, jump_of_ne_fell holds valueOf hstops, broken, List.find?_map]
  generalize hfound : cases.find? _ = found
  have hfound' : (cases.find? fun c => c.1 = valueOf value) = found := hfound
  rw [hfound']
  cases found with
  | none => rfl
  | some c =>
      rw [Option.map_some, Option.elim, exec, exec]
      rfl

/-! ## Order of the cases -/

/-- The cases by ascending labels. -/
def sorted (cases : List (Int × Stmt C E R)) : List (Int × Stmt C E R) :=
  cases.mergeSort fun a b => decide (a.1 ≤ b.1)

theorem sorted_perm (cases : List (Int × Stmt C E R)) : (sorted cases).Perm cases :=
  List.mergeSort_perm _ _

/-- A label that stands once is found in any order. -/
theorem find?_of_mem {α : Type*} {cases : List (Int × α)} (hnodup : (cases.map Prod.fst).Nodup)
    {c : Int × α} (h : c ∈ cases) : (cases.find? fun c' => c'.1 = c.1) = some c := by
  induction cases with
  | nil => cases h
  | cons c₀ cases ih =>
      rw [List.map_cons, List.nodup_cons] at hnodup
      rcases List.mem_cons.mp h with rfl | hmem
      · exact List.find?_cons_of_pos (decide_eq_true rfl)
      · have hne : c₀.1 ≠ c.1 := by
          intro heq
          exact hnodup.1 (heq ▸ List.mem_map_of_mem hmem)
        rw [List.find?_cons_of_neg (by simpa using hne)]
        exact ih hnodup.2 hmem

theorem find?_perm {α : Type*} {cases cases' : List (Int × α)}
    (hnodup : (cases.map Prod.fst).Nodup) (hperm : cases'.Perm cases) (v : Int) :
    (cases'.find? fun c => c.1 = v) = cases.find? fun c => c.1 = v := by
  have hnodup' : (cases'.map Prod.fst).Nodup := ((hperm.map _).nodup_iff).mpr hnodup
  cases h : cases.find? fun c => c.1 = v with
  | none =>
      rw [List.find?_eq_none] at h ⊢
      exact fun c hc => h c (hperm.mem_iff.mp hc)
  | some c =>
      have hv : c.1 = v := by simpa using List.find?_some h
      rw [← hv]
      exact find?_of_mem hnodup' (hperm.mem_iff.mpr (List.mem_of_find?_eq_some h))

/-! ## What compiles -/

section Compiles

variable (condOk : C → Prop) (valueOk : E → Prop)

mutual

/-- Conditions and values are in order, a break stands in a switch, and no label stands twice. -/
def Compiles (inSwitch : Prop) : Stmt C E R → Prop
  | skip => True
  | seq first next => Compiles inSwitch first ∧ Compiles inSwitch next
  | ret _ => True
  | brk => inSwitch
  | ifElse cond yes no => condOk cond ∧ Compiles inSwitch yes ∧ Compiles inSwitch no
  | switch value cases =>
      valueOk value ∧ (cases.map Prod.fst).Nodup ∧ CasesCompile cases

def CasesCompile : List (Int × Stmt C E R) → Prop
  | [] => True
  | (_, body) :: cases => Compiles True body ∧ CasesCompile cases

end

theorem casesCompile_iff (cases : List (Int × Stmt C E R)) :
    CasesCompile condOk valueOk cases ↔ ∀ c ∈ cases, Compiles condOk valueOk True c.2 := by
  induction cases with
  | nil => simp [CasesCompile]
  | cons c cases ih => rw [CasesCompile, ih, List.forall_mem_cons]

end Compiles

end Stmt

end Amed.Statements
