import Amed.Library.Printing

/-!
# Reading numerals

A numeral is read digit by digit. What the conversions of a printer write is read back to the
number that they were given.
-/

namespace Amed.Printing

/-- The value of a digit. -/
def digitValue (c : Char) : Option Nat :=
  if '0' ≤ c ∧ c ≤ '9' then some (c.toNat - 48)
  else if 'a' ≤ c ∧ c ≤ 'f' then some (c.toNat - 87)
  else none

/-- The digits behind a number. -/
def readDigits (b : Nat) : List Char → Nat → Option Nat
  | [], n => some n
  | c :: cs, n =>
      match digitValue c with
      | some d => if d < b then readDigits b cs (b * n + d) else none
      | none => none

/-- A numeral: hexadecimal behind `0x`, else decimal. An empty one is not a numeral. -/
def readNumeral : List Char → Option Nat
  | [] => none
  | ['0', 'x'] => none
  | '0' :: 'x' :: cs => readDigits 16 cs 0
  | cs => readDigits 10 cs 0

theorem digitValue_digitChar : ∀ d < 16, digitValue d.digitChar = some d := by decide

theorem readDigits_append (b : Nat) (cs ds : List Char) (n : Nat) :
    readDigits b (cs ++ ds) n = (readDigits b cs n).bind (readDigits b ds) := by
  induction cs generalizing n with
  | nil => rfl
  | cons c cs ih =>
      rw [List.cons_append, readDigits, readDigits]
      cases digitValue c with
      | none => rfl
      | some d =>
          dsimp only
          split
          · exact ih _
          · rfl

theorem readDigits_digitChar {b d : Nat} (hb : b ≤ 16) (hd : d < b) (n : Nat) :
    readDigits b [d.digitChar] n = some (b * n + d) := by
  rw [readDigits, digitValue_digitChar d (Nat.lt_of_lt_of_le hd hb)]
  exact if_pos hd

theorem readDigits_toDigits {b : Nat} (hb : 1 < b) (hb' : b ≤ 16) (n : Nat) :
    readDigits b (Nat.toDigits b n) 0 = some n := by
  induction n using Nat.strongRecOn with
  | _ n ih =>
      rw [Nat.toDigits_eq_if hb]
      split
      · rename_i hlt
        rw [readDigits_digitChar hb' hlt, Nat.mul_zero, Nat.zero_add]
      · rename_i hle
        have hdiv : n / b < n := Nat.div_lt_self (by omega) hb
        have hmod : n % b < b := Nat.mod_lt n (Nat.zero_lt_of_lt hb)
        rw [readDigits_append, ih _ hdiv, Option.bind_some, readDigits_digitChar hb' hmod,
          Nat.div_add_mod]

theorem readDigits_zeros (b k : Nat) (hb : 0 < b) :
    readDigits b (List.replicate k '0') 0 = some 0 := by
  induction k with
  | zero => rfl
  | succ k ih =>
      have hzero : digitValue '0' = some 0 := by decide
      rw [List.replicate_succ, readDigits, hzero]
      dsimp only
      rw [if_pos hb, Nat.mul_zero]
      exact ih

theorem readDigits_hex (width n : Nat) : readDigits 16 (hex width n) 0 = some n := by
  rw [hex, List.leftpad, readDigits_append, readDigits_zeros 16 _ (by decide), Option.bind_some,
    readDigits_toDigits (by decide) (by decide)]

theorem hex_ne_nil (width n : Nat) : hex width n ≠ [] := by
  intro h
  rw [hex, List.leftpad, List.append_eq_nil_iff] at h
  exact Nat.toDigits_ne_nil h.2

/-- What `0x%0<width>x` writes. -/
theorem readNumeral_hex (width n : Nat) :
    readNumeral ('0' :: 'x' :: hex width n) = some n := by
  rw [← readDigits_hex width n]
  cases hdigits : hex width n with
  | nil => exact absurd hdigits (hex_ne_nil width n)
  | cons c cs => rfl

/-- What holds of the digits holds of every character of a numeral. -/
theorem forall_toDigits {b : Nat} (hb : 1 < b) {P : Char → Prop} (h : ∀ d < b, P d.digitChar)
    (n : Nat) : ∀ c ∈ Nat.toDigits b n, P c := by
  induction n using Nat.strongRecOn with
  | _ n ih =>
      intro c hc
      rw [Nat.toDigits_eq_if hb] at hc
      split at hc
      · rename_i hlt
        exact List.mem_singleton.mp hc ▸ h n hlt
      · rename_i hle
        obtain hc | hc := List.mem_append.mp hc
        · exact ih (n / b) (Nat.div_lt_self (by omega) hb) c hc
        · exact List.mem_singleton.mp hc ▸ h _ (Nat.mod_lt n (Nat.zero_lt_of_lt hb))

theorem digitChar_ne_x : ∀ d < 10, d.digitChar ≠ 'x' := by decide

theorem x_not_mem_decimal (n : Nat) : 'x' ∉ decimal n := by
  rw [decimal]
  induction n using Nat.strongRecOn with
  | _ n ih =>
      rw [Nat.toDigits_eq_if (by decide)]
      split
      · rename_i hlt
        rw [List.mem_singleton]
        exact (digitChar_ne_x n hlt).symm
      · rename_i hle
        rw [List.mem_append, not_or, List.mem_singleton]
        exact ⟨ih _ (Nat.div_lt_self (by omega) (by decide)),
          (digitChar_ne_x _ (Nat.mod_lt n (by decide))).symm⟩

/-- What `%u` writes. -/
theorem readNumeral_decimal (n : Nat) : readNumeral (decimal n) = some n := by
  have hread : readDigits 10 (decimal n) 0 = some n :=
    readDigits_toDigits (by decide) (by decide) n
  have hne := decimal_ne_nil n
  have hx := x_not_mem_decimal n
  rw [← hread]
  clear hread
  generalize decimal n = cs at hne hx
  unfold readNumeral
  split
  · exact absurd rfl hne
  · exact absurd (by simp) hx
  · exact absurd (by simp) hx
  · rfl

theorem decimal_inj {n m : Nat} (h : decimal n = decimal m) : n = m := by
  have hread := readNumeral_decimal n
  rw [h, readNumeral_decimal] at hread
  exact (Option.some.inj hread).symm

end Amed.Printing
