import Mathlib.Data.List.Induction
import Amed.Library.Numerals

/-!
# Ranges between texts of digits

A range operator that is given two texts counts in texts where the first one starts with a zero:
the next text is as wide as the one before it until every digit is a nine, and the range ends with
its last text or where a text gets longer than that one. Other texts of digits stand for their
numbers. Between numerals without leading zeros both are the range of the numbers.
-/

namespace Amed.TextRange

open Printing

/-- The number that a text of digits stands for. -/
def numberOf (ds : List Char) : Nat := ds.foldl (fun n d => 10 * n + (d.toNat - 48)) 0

/-- The next text with the last digit first: a nine becomes a zero and carries. -/
def carry : List Char → List Char
  | [] => ['1']
  | d :: ds => if d = '9' then '0' :: carry ds else Char.ofNat (d.toNat + 1) :: ds

def increment (ds : List Char) : List Char := (carry ds.reverse).reverse

/-- The texts up to the last one, or up to the first that is longer. -/
def textsBy : Nat → List Char → List Char → List (List Char)
  | 0, _, _ => []
  | n + 1, ds, last =>
      if last.length < ds.length then []
      else ds :: if ds = last then [] else textsBy n (increment ds) last

/-- The numbers of the range: there are no more texts than `10 ^ last.length`. -/
def range (first last : List Char) : List Nat :=
  if first.head? = some '0' then (textsBy (10 ^ last.length) first last).map numberOf
  else List.range' (numberOf first) (numberOf last + 1 - numberOf first)

/-! ## Digits -/

theorem eq_digitChar {d : Char} (h : d.isDigit = true) : ∃ k < 10, d = k.digitChar := by
  simp only [Char.isDigit, Bool.and_eq_true, decide_eq_true_eq] at h
  have hlow : 48 ≤ d.toNat := h.1
  have hhigh : d.toNat ≤ 57 := h.2
  refine ⟨d.toNat - 48, by omega, Char.toNat_inj.mp ?_⟩
  have hchar : ∀ k < 10, k.digitChar.toNat = k + 48 := by decide
  rw [hchar _ (by omega)]
  omega

theorem digitChar_toNat : ∀ k < 10, k.digitChar.toNat - 48 = k := by decide

theorem digitChar_succ : ∀ k < 10, k.digitChar ≠ '9' →
    Char.ofNat (k.digitChar.toNat + 1) = (k + 1).digitChar ∧ k + 1 < 10 := by decide

/-- A digit behind a numeral is its new last place. -/
theorem numberOf_concat (ds : List Char) (d : Char) :
    numberOf (ds ++ [d]) = 10 * numberOf ds + (d.toNat - 48) := by
  rw [numberOf, List.foldl_append]
  rfl

theorem numberOf_lt {ds : List Char} (h : ∀ d ∈ ds, d.isDigit = true) :
    numberOf ds < 10 ^ ds.length := by
  induction ds using List.reverseRecOn with
  | nil => exact Nat.one_pos
  | append_singleton ds d ih =>
      have hds := ih fun c hc => h c (List.mem_append_left _ hc)
      obtain ⟨k, hk, rfl⟩ := eq_digitChar (h d (by simp))
      rw [numberOf_concat, digitChar_toNat k hk, List.length_append, List.length_singleton,
        Nat.pow_succ]
      omega

/-- The next text is one of digits, and stands for the next number. -/
theorem carry_spec {ds : List Char} (h : ∀ d ∈ ds, d.isDigit = true) :
    (∀ d ∈ carry ds, d.isDigit = true) ∧
      numberOf (carry ds).reverse = numberOf ds.reverse + 1 := by
  induction ds with
  | nil => exact ⟨by simp [carry], rfl⟩
  | cons d ds ih =>
      obtain ⟨hd, hds⟩ := List.forall_mem_cons.mp h
      obtain ⟨hdigits, hnumber⟩ := ih hds
      obtain ⟨k, hk, rfl⟩ := eq_digitChar hd
      rw [carry, List.reverse_cons, numberOf_concat, digitChar_toNat k hk]
      split
      · rename_i hnine
        refine ⟨List.forall_mem_cons.mpr ⟨by decide, hdigits⟩, ?_⟩
        have hk9 : k = 9 := by
          have := digitChar_toNat k hk
          rw [hnine] at this
          exact this.symm
        rw [List.reverse_cons, numberOf_concat, hnumber, hk9]
        simp
        omega
      · rename_i hnine
        obtain ⟨hchar, hlt⟩ := digitChar_succ k hk hnine
        have hdigit : ∀ k < 10, k.digitChar.isDigit = true := by decide
        rw [hchar, List.reverse_cons, numberOf_concat, digitChar_toNat _ hlt]
        exact ⟨List.forall_mem_cons.mpr ⟨hdigit _ hlt, hds⟩, by omega⟩

theorem increment_spec {ds : List Char} (h : ∀ d ∈ ds, d.isDigit = true) :
    (∀ d ∈ increment ds, d.isDigit = true) ∧ numberOf (increment ds) = numberOf ds + 1 := by
  obtain ⟨hdigits, hnumber⟩ := carry_spec (by simpa using h : ∀ d ∈ ds.reverse, d.isDigit = true)
  rw [List.reverse_reverse] at hnumber
  exact ⟨by simpa [increment] using hdigits, hnumber⟩

/-- More passes than there are numbers of that length give no more texts. -/
theorem textsBy_eq {n m : Nat} {ds last : List Char} (h : ∀ d ∈ ds, d.isDigit = true)
    (hn : 10 ^ last.length ≤ numberOf ds + n) (hm : 10 ^ last.length ≤ numberOf ds + m) :
    textsBy n ds last = textsBy m ds last := by
  have hlonger {ds : List Char} (h : ∀ d ∈ ds, d.isDigit = true)
      (hds : 10 ^ last.length ≤ numberOf ds) (k : Nat) : textsBy k ds last = [] := by
    have hlength : last.length < ds.length :=
      (Nat.pow_lt_pow_iff_right (by decide)).mp (Nat.lt_of_le_of_lt hds (numberOf_lt h))
    cases k with
    | zero => rfl
    | succ k => rw [textsBy, if_pos hlength]
  induction n generalizing m ds with
  | zero => rw [hlonger h hn m, textsBy]
  | succ n ih =>
      cases m with
      | zero => rw [hlonger h hm (n + 1), textsBy]
      | succ m =>
          obtain ⟨hdigits, hnumber⟩ := increment_spec h
          rw [textsBy, textsBy, ih hdigits (m := m) (by omega) (by omega)]

/-! ## Numerals without leading zeros -/

/-- A numeral as it is written. -/
structure Canonical (ds : List Char) : Prop where
  ne_nil : ds ≠ []
  digits : ∀ d ∈ ds, d.isDigit = true
  zero : ds.head? = some '0' → ds = ['0']

theorem numberOf_decimal (n : Nat) : numberOf (decimal n) = n := by
  rw [decimal]
  induction n using Nat.strongRecOn with
  | _ n ih =>
      rw [Nat.toDigits_eq_if (by decide)]
      split
      · rename_i hlt
        change 10 * 0 + (n.digitChar.toNat - 48) = n
        rw [digitChar_toNat n hlt, Nat.mul_zero, Nat.zero_add]
      · rw [numberOf_concat, ih _ (Nat.div_lt_self (by omega) (by decide)),
          digitChar_toNat _ (Nat.mod_lt n (by decide)), Nat.div_add_mod]

/-- A numeral without leading zeros is the decimal text of its number. -/
theorem Canonical.eq_decimal {ds : List Char} (h : Canonical ds) : ds = decimal (numberOf ds) := by
  induction ds using List.reverseRecOn with
  | nil => exact absurd rfl h.ne_nil
  | append_singleton ds d ih =>
      obtain ⟨k, hk, rfl⟩ := eq_digitChar (h.digits d (by simp))
      rw [numberOf_concat, digitChar_toNat k hk]
      cases hds : ds with
      | nil =>
          rw [List.nil_append, numberOf, List.foldl_nil, Nat.mul_zero, Nat.zero_add, decimal,
            Nat.toDigits_of_lt_base hk]
      | cons c cs =>
          rw [← hds]
          have hhead : ds.head? ≠ some '0' := by
            intro hzero
            have := congrArg List.length (h.zero (by rw [hds] at hzero ⊢; exact hzero))
            simp [hds] at this
          have hfront := ih ⟨by simp [hds], fun c hc => h.digits c (List.mem_append_left _ hc),
            fun hzero => absurd hzero hhead⟩
          have hpos : 0 < numberOf ds := by
            refine Nat.pos_of_ne_zero fun hzero => hhead ?_
            rw [hfront, hzero]
            rfl
          rw [decimal, ← Nat.toDigits_append_toDigits (by decide) hpos hk,
            Nat.toDigits_of_lt_base hk]
          exact congrArg (· ++ [k.digitChar]) hfront

theorem head_decimal {n : Nat} (h : (decimal n).head? = some '0') : n = 0 := by
  rw [decimal] at h
  induction n using Nat.strongRecOn with
  | _ n ih =>
      have hzero : ∀ k < 10, k.digitChar = '0' → k = 0 := by decide
      rw [Nat.toDigits_eq_if (by decide)] at h
      split at h
      · rename_i hlt
        exact hzero n hlt (Option.some.inj h)
      · rename_i hle
        rw [List.head?_append_of_ne_nil _ Nat.toDigits_ne_nil] at h
        have := ih _ (Nat.div_lt_self (by omega) (by decide)) h
        omega

theorem increment_decimal (n : Nat) : increment (decimal n) = decimal (n + 1) := by
  rw [decimal, decimal, increment]
  induction n using Nat.strongRecOn with
  | _ n ih =>
      by_cases hlt : n < 10
      · have hdigit : ∀ n < 10, (carry [n.digitChar]).reverse = Nat.toDigits 10 (n + 1) := by decide
        rw [Nat.toDigits_of_lt_base hlt]
        exact hdigit n hlt
      · have hmod : n % 10 < 10 := Nat.mod_lt n (by decide)
        rw [Nat.toDigits_of_base_le (by decide) (Nat.le_of_not_lt hlt), List.reverse_append,
          List.reverse_singleton, List.singleton_append, carry]
        rw [Nat.toDigits_of_base_le (n := n + 1) (by decide) (by omega)]
        split
        · rename_i hnine
          have hnine' : n % 10 = 9 := by
            have := digitChar_toNat _ hmod
            rw [hnine] at this
            exact this.symm
          rw [List.reverse_cons, ih _ (Nat.div_lt_self (by omega) (by decide)),
            show (n + 1) / 10 = n / 10 + 1 by omega, show (n + 1) % 10 = 0 by omega]
          rfl
        · rename_i hnine
          obtain ⟨hchar, hsucc⟩ := digitChar_succ _ hmod hnine
          rw [hchar, List.reverse_cons, List.reverse_reverse, show (n + 1) / 10 = n / 10 by omega,
            show (n + 1) % 10 = n % 10 + 1 by omega]

theorem length_decimal_le {m n : Nat} (h : m ≤ n) : (decimal m).length ≤ (decimal n).length := by
  have hpos : 0 < (decimal n).length := Nat.length_toDigits_pos
  refine (Nat.length_toDigits_le_iff (by decide) hpos).mpr (Nat.lt_of_le_of_lt h ?_)
  exact (Nat.length_toDigits_le_iff (by decide) hpos).mp (Nat.le_refl _)

/-- The texts between two numerals are the numerals of the numbers between them. -/
theorem textsBy_decimal {k m n : Nat} (h : m ≤ n) (hk : n - m < k) :
    textsBy k (decimal m) (decimal n) = (List.range' m (n + 1 - m)).map decimal := by
  induction k generalizing m with
  | zero => exact absurd hk (Nat.not_lt_zero _)
  | succ k ih =>
      rw [textsBy, if_neg (Nat.not_lt.mpr (length_decimal_le h)),
        show n + 1 - m = (n - m) + 1 by omega, List.range'_succ, List.map_cons]
      by_cases heq : m = n
      · rw [if_pos (congrArg decimal heq), heq, Nat.sub_self, List.range'_zero, List.map_nil]
      · rw [if_neg fun htext => heq (decimal_inj htext), increment_decimal,
          ih (by omega) (by omega), show n + 1 - (m + 1) = n - m by omega]

/-- Between numerals the range is that of the numbers. -/
theorem range_decimal (m n : Nat) :
    range (decimal m) (decimal n) = List.range' m (n + 1 - m) := by
  unfold range
  split
  · rename_i hzero
    obtain rfl := head_decimal hzero
    have hlt : n < 10 ^ (decimal n).length :=
      (Nat.length_toDigits_le_iff (by decide) Nat.length_toDigits_pos).mp (Nat.le_refl _)
    rw [textsBy_decimal (Nat.zero_le n) (by omega), List.map_map]
    exact (List.map_congr_left fun k _ => numberOf_decimal k).trans (List.map_id _)
  · rw [numberOf_decimal, numberOf_decimal]

/-- Between numerals without leading zeros a range of texts counts as one of numbers. -/
theorem Canonical.range_eq {ds es : List Char} (hds : Canonical ds) (hes : Canonical es) :
    range ds es = List.range' (numberOf ds) (numberOf es + 1 - numberOf ds) := by
  have h := range_decimal (numberOf ds) (numberOf es)
  rwa [← hds.eq_decimal, ← hes.eq_decimal] at h

/-- A first text that is longer than the last one leaves the range empty. -/
theorem range_of_longer {ds es : List Char} (hzero : ds.head? = some '0')
    (h : es.length < ds.length) : range ds es = [] := by
  obtain ⟨n, hn⟩ := Nat.exists_eq_succ_of_ne_zero (Nat.pow_pos (n := es.length)
    (by decide : 0 < 10)).ne'
  rw [range, if_pos hzero, hn, textsBy, if_pos h, List.map_nil]

example : range ['0', '0'] ['3'] = [] := by decide

end Amed.TextRange
