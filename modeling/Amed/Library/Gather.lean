import Mathlib.Data.List.Induction
import Amed.Library.BitFields

/-!
# Gathered bits

The bits of a word under a mask, pushed together in order. A field below a mask comes out
as the low digits, so that a mask of several fields reads their concatenation.
-/

namespace Amed.BitFields

/-- The bits of `w` under the low `n` bits of a mask, pushed together. -/
def gather : Nat → Nat → Nat → Nat
  | 0, _, _ => 0
  | n + 1, m, w =>
      if m % 2 = 1 then w % 2 + 2 * gather n (m / 2) (w / 2) else gather n (m / 2) (w / 2)

/-- The number of bits set among the low `n`. -/
def bitCount : Nat → Nat → Nat
  | 0, _ => 0
  | n + 1, m => m % 2 + bitCount n (m / 2)

theorem gather_zero_left (n w : Nat) : gather n 0 w = 0 := by
  induction n generalizing w with
  | zero => rfl
  | succ n ih => simp [gather, ih]

theorem gather_zero_right (n m : Nat) : gather n m 0 = 0 := by
  induction n generalizing m with
  | zero => rfl
  | succ n ih => simp [gather, ih]

/-- The low bits first, the rest above them. -/
theorem gather_add (k n m w : Nat) :
    gather (k + n) m w =
      gather k m w + 2 ^ bitCount k m * gather n (m / 2 ^ k) (w / 2 ^ k) := by
  induction k generalizing m w with
  | zero => simp [gather, bitCount]
  | succ k ih =>
      rw [Nat.succ_add_eq_add_succ, Nat.add_succ, gather, gather, ih (m / 2) (w / 2),
        Nat.div_div_eq_div_mul, Nat.div_div_eq_div_mul, ← Nat.pow_succ', bitCount]
      rcases Nat.mod_two_eq_zero_or_one m with h | h
      · rw [if_neg (by omega), if_neg (by omega), h, Nat.zero_add]
      · rw [if_pos h, if_pos h, h, Nat.pow_add, Nat.pow_one, Nat.mul_add, Nat.add_assoc,
          Nat.mul_assoc]

/-- A mask without low bits gathers nothing from them. -/
theorem gather_mul_two_pow (n r w : Nat) :
    gather n (2 ^ n * r) w = 0 ∧ bitCount n (2 ^ n * r) = 0 := by
  induction n generalizing w with
  | zero => exact ⟨rfl, rfl⟩
  | succ n ih =>
      have hhalf : 2 ^ (n + 1) * r = 2 * (2 ^ n * r) := by
        rw [Nat.pow_succ', Nat.mul_assoc]
      rw [hhalf, gather, bitCount, Nat.mul_mod_right, Nat.mul_div_cancel_left _ Nat.two_pos]
      exact ⟨by simp [(ih _).1], by simp [(ih w).2]⟩

/-- A mask whose low bits are all set gathers all of them. -/
theorem gather_ones (n r w : Nat) :
    gather n (2 ^ n - 1 + 2 ^ n * r) w = w % 2 ^ n ∧ bitCount n (2 ^ n - 1 + 2 ^ n * r) = n := by
  induction n generalizing w with
  | zero => simp [gather, bitCount, Nat.mod_one]
  | succ n ih =>
      have hpos := Nat.two_pow_pos n
      have hodd : 2 ^ (n + 1) - 1 + 2 ^ (n + 1) * r = 2 * (2 ^ n - 1 + 2 ^ n * r) + 1 := by
        rw [Nat.pow_succ', Nat.mul_assoc]
        omega
      have hhalf : (2 * (2 ^ n - 1 + 2 ^ n * r) + 1) / 2 = 2 ^ n - 1 + 2 ^ n * r := by omega
      rw [hodd, gather, bitCount, hhalf, (ih _).1, (ih w).2, if_pos (by omega), Nat.pow_succ',
        Nat.mod_mul]
      exact ⟨rfl, by omega⟩

/-- A field below every bit of a mask. -/
def Field.Below (f : Field) (m : Nat) : Prop := ∀ i, m.testBit i = true → f.pos + f.width ≤ i

theorem Field.below_mask {f g : Field} (h : f.pos + f.width ≤ g.pos) : f.Below g.mask := by
  intro i hi
  rw [Field.testBit_mask, Bool.and_eq_true, decide_eq_true_eq] at hi
  exact Nat.le_trans h hi.1

theorem Field.Below.or {f : Field} {m n : Nat} (hm : f.Below m) (hn : f.Below n) :
    f.Below (m ||| n) := by
  intro i hi
  rw [Nat.testBit_or, Bool.or_eq_true] at hi
  exact hi.elim (hm i) (hn i)

theorem Field.Below.eq_mul {f : Field} {m : Nat} (h : f.Below m) :
    m = 2 ^ (f.pos + f.width) * (m / 2 ^ (f.pos + f.width)) := by
  apply Nat.eq_of_testBit_eq
  intro i
  rw [Nat.mul_comm, ← Nat.shiftLeft_eq, Nat.testBit_shiftLeft, Nat.testBit_div_two_pow]
  by_cases hi : f.pos + f.width ≤ i
  · simp [hi]
  · rw [decide_eq_false hi, Bool.false_and, Bool.eq_false_iff]
    exact fun hbit => hi (h i hbit)

/-- A mask with a field put below it gathers the field's value as the low digits. -/
theorem gather_or_mask {f : Field} {m n : Nat} (hbelow : f.Below m)
    (hfit : f.pos + f.width ≤ n) (w : Nat) :
    gather n (m ||| f.mask) w = gather n m w * 2 ^ f.width + f.get w := by
  obtain ⟨rest, rfl⟩ := Nat.exists_eq_add_of_le hfit
  generalize hr : m / 2 ^ (f.pos + f.width) = r
  have hm : m = 2 ^ f.pos * (2 ^ f.width * r) := by
    rw [hbelow.eq_mul, hr, Nat.pow_add, Nat.mul_assoc]
  have hor : m ||| f.mask = 2 ^ f.pos * (2 ^ f.width - 1 + 2 ^ f.width * r) := by
    have hlt : 2 ^ f.width - 1 < 2 ^ f.width := Nat.sub_one_lt (Nat.two_pow_pos _).ne'
    rw [hm, Field.mask, Nat.mul_comm (2 ^ f.pos), ← Nat.shiftLeft_eq, ← Nat.shiftLeft_or_distrib,
      ← Nat.two_pow_add_eq_or_of_lt hlt, Nat.shiftLeft_eq, Nat.mul_comm _ (2 ^ f.pos),
      Nat.add_comm]
  rw [hor, hm]
  rw [Nat.add_assoc, gather_add, gather_add f.width, gather_add f.pos, gather_add f.width]
  simp only [(gather_mul_two_pow _ _ _).1, (gather_mul_two_pow _ _ 0).2, (gather_ones _ _ _).1,
    (gather_ones _ _ 0).2, Nat.mul_div_cancel_left _ (Nat.two_pow_pos _), Nat.pow_zero,
    Nat.one_mul, Nat.zero_add, Field.get]
  have hrest : (2 ^ f.width - 1 + 2 ^ f.width * r) / 2 ^ f.width = r := by
    rw [Nat.add_mul_div_left _ _ (Nat.two_pow_pos _),
      Nat.div_eq_of_lt (Nat.sub_one_lt (Nat.two_pow_pos _).ne'), Nat.zero_add]
  rw [hrest, Nat.add_comm, Nat.mul_comm]

/-- A mask of one field gathers the field. -/
theorem gather_mask {f : Field} {n : Nat} (hfit : f.pos + f.width ≤ n) (w : Nat) :
    gather n f.mask w = f.get w := by
  have hzero : f.Below 0 := fun i hi => by simp at hi
  have h := gather_or_mask hzero hfit w
  rwa [gather_zero_left, Nat.zero_mul, Nat.zero_add, Nat.zero_or] at h

/-- Bits outside the mask do not count. -/
theorem gather_and (n m w : Nat) : gather n m (w &&& m) = gather n m w := by
  induction n generalizing m w with
  | zero => rfl
  | succ n ih =>
      rw [gather, gather, Nat.and_div_two, ih]
      split
      · rename_i hodd
        have hbit : (w &&& m) % 2 = w % 2 := by
          rw [← Nat.and_one_is_mod, Nat.and_assoc, Nat.and_one_is_mod m, hodd, Nat.and_one_is_mod]
        rw [hbit]
      · rfl

/-! ## The bits of a gathered word -/

/-- The positions of the ones among the low `n` bits of a mask, the lowest first. -/
def ones (n m : Nat) : List Nat := (List.range n).filter m.testBit

theorem mem_ones {n m i : Nat} : i ∈ ones n m ↔ i < n ∧ m.testBit i = true := by
  rw [ones, List.mem_filter, List.mem_range]

theorem ones_sorted (n m : Nat) : (ones n m).Pairwise (· < ·) :=
  List.pairwise_lt_range.filter m.testBit

theorem ones_length_le (n m : Nat) : (ones n m).length ≤ n :=
  Nat.le_trans (List.length_filter_le _ _) (Nat.le_of_eq List.length_range)

theorem ones_zero_right (n : Nat) : ones n 0 = [] := by
  simp [ones]

theorem ones_succ (n m : Nat) :
    ones (n + 1) m = (if m % 2 = 1 then [0] else []) ++ (ones n (m / 2)).map (· + 1) := by
  have hrest : m.testBit ∘ (· + 1) = (m / 2).testBit :=
    funext fun i => Nat.testBit_add_one m i
  rw [ones, List.range_succ_eq_map, List.filter_cons, List.filter_map, hrest, ones,
    Nat.testBit_zero]
  split <;> simp_all

/-- Bit `j` is the bit at the `j`-th one of the mask. -/
theorem testBit_gather (n m w j : Nat) :
    (gather n m w).testBit j = ((ones n m)[j]?).elim false w.testBit := by
  induction n generalizing m w j with
  | zero => simp [gather, ones]
  | succ n ih =>
      have hmap (i : Nat) : (((ones n (m / 2)).map (· + 1))[i]?).elim false w.testBit =
          (gather n (m / 2) (w / 2)).testBit i := by
        rw [ih, List.getElem?_map]
        cases (ones n (m / 2))[i]? with
        | none => rfl
        | some k => exact Nat.testBit_add_one w k
      rw [gather, ones_succ]
      split
      · cases j with
        | zero =>
            rw [Nat.testBit_zero]
            simp [Nat.testBit_zero]
        | succ j =>
            have hdiv : (w % 2 + 2 * gather n (m / 2) (w / 2)) / 2 =
                gather n (m / 2) (w / 2) := by omega
            rw [Nat.testBit_add_one, hdiv, ← hmap]
            rfl
      · rw [← hmap]
        rfl

/-- Fields one behind another, the first one most significant. -/
def concat (fs : List Field) (w : Nat) : Nat :=
  fs.foldl (fun result f => result * 2 ^ f.width + f.get w) 0

/-- The width of fields one behind another. -/
def totalWidth (fs : List Field) : Nat := (fs.map Field.width).sum

theorem totalWidth_append (fs gs : List Field) :
    totalWidth (fs ++ gs) = totalWidth fs + totalWidth gs := by
  rw [totalWidth, List.map_append, List.sum_append, totalWidth, totalWidth]

theorem concat_append_singleton (fs : List Field) (f : Field) (w : Nat) :
    concat (fs ++ [f]) w = concat fs w * 2 ^ f.width + f.get w := by
  simp [concat]

theorem concat_append (fs gs : List Field) (w : Nat) :
    concat (fs ++ gs) w = concat fs w * 2 ^ totalWidth gs + concat gs w := by
  induction gs using List.reverseRecOn with
  | nil => simp [concat, totalWidth]
  | append_singleton gs g ih =>
      rw [← List.append_assoc, concat_append_singleton, concat_append_singleton, ih]
      simp only [totalWidth, List.map_append, List.sum_append, List.map_cons, List.map_nil,
        List.sum_cons, List.sum_nil, Nat.add_zero, Nat.pow_add]
      rw [Nat.add_mul, Nat.mul_assoc, Nat.add_assoc]

theorem concat_lt (fs : List Field) (w : Nat) : concat fs w < 2 ^ totalWidth fs := by
  induction fs using List.reverseRecOn with
  | nil => simp [concat, totalWidth]
  | append_singleton fs f ih =>
      have hget := f.get_lt w
      have hle := Nat.mul_le_mul_right (2 ^ f.width) (Nat.succ_le_of_lt ih)
      rw [concat_append_singleton, totalWidth, List.map_append, List.sum_append, Nat.pow_add]
      simp only [List.map_cons, List.map_nil, List.sum_cons, List.sum_nil, Nat.add_zero]
      rw [Nat.succ_mul] at hle
      rw [← totalWidth]
      omega

end Amed.BitFields
