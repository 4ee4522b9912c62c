import Mathlib.Data.Nat.Bitwise
import Mathlib.Data.List.Pairwise

/-!
# Bit fields of a word

A word tested under a mask: `w &&& mask = value`. A list of disjoint fields with the values
they should have gives one mask and one value, and the test under that mask is the
conjunction of the tests of the fields.
-/

namespace Amed.BitFields

/-- A field of a word: the position of its lowest bit and its width. -/
structure Field where
  pos : Nat
  width : Nat
  deriving DecidableEq, Repr

/-- The bits of a field. -/
def Field.mask (f : Field) : Nat := (2 ^ f.width - 1) <<< f.pos

/-- The value a word has in a field. -/
def Field.get (f : Field) (w : Nat) : Nat := w / 2 ^ f.pos % 2 ^ f.width

/-- Two fields without a common bit. -/
def Field.Apart (f g : Field) : Prop := f.pos + f.width ≤ g.pos ∨ g.pos + g.width ≤ f.pos

instance (f g : Field) : Decidable (f.Apart g) := inferInstanceAs (Decidable (_ ∨ _))

@[simp] theorem Field.testBit_mask (f : Field) (i : Nat) :
    f.mask.testBit i = (decide (f.pos ≤ i) && decide (i < f.pos + f.width)) := by
  rw [mask, Nat.testBit_shiftLeft, Nat.testBit_two_pow_sub_one]
  by_cases h : f.pos ≤ i
  · simp [h, Nat.sub_lt_iff_lt_add h, Nat.add_comm]
  · simp [h]

theorem Field.testBit_get (f : Field) (w i : Nat) :
    (f.get w).testBit i = (decide (i < f.width) && w.testBit (i + f.pos)) := by
  rw [get, Nat.testBit_mod_two_pow, Nat.testBit_div_two_pow]

theorem Field.get_and (f : Field) (v w : Nat) : f.get (v &&& w) = f.get v &&& f.get w := by
  apply Nat.eq_of_testBit_eq
  intro i
  simp only [Nat.testBit_and, Field.testBit_get]
  cases decide (i < f.width) <;> simp

theorem Field.get_lt (f : Field) (w : Nat) : f.get w < 2 ^ f.width :=
  Nat.mod_lt _ (Nat.two_pow_pos _)

/-- The bits of a field, masked out and moved down. -/
theorem Field.and_mask_div (f : Field) (w : Nat) : (w &&& f.mask) / 2 ^ f.pos = f.get w := by
  apply Nat.eq_of_testBit_eq
  intro i
  rw [Nat.testBit_div_two_pow, Nat.testBit_and, Field.testBit_mask, Field.testBit_get]
  have hlt : i + f.pos < f.pos + f.width ↔ i < f.width := by omega
  simp [hlt, Bool.and_comm]

/-- Bits of `v` are bits of `m`. -/
def Within (v m : Nat) : Prop := v &&& m = v

theorem within_iff {v m : Nat} : Within v m ↔ ∀ i, v.testBit i = true → m.testBit i = true := by
  constructor
  · intro h i hi
    have hbit := congrArg (·.testBit i) h
    simp only [Nat.testBit_and, hi, Bool.true_and] at hbit
    exact hbit
  · intro h
    apply Nat.eq_of_testBit_eq
    intro i
    rw [Nat.testBit_and]
    cases hi : v.testBit i with
    | false => rfl
    | true => rw [h i hi]; rfl

theorem Within.or {v m v' m' : Nat} (h : Within v m) (h' : Within v' m') :
    Within (v ||| v') (m ||| m') := by
  rw [within_iff] at h h' ⊢
  intro i hi
  rw [Nat.testBit_or, Bool.or_eq_true] at hi ⊢
  exact hi.imp (h i) (h' i)

/-- A value shifted to a field it fits in. -/
theorem Field.within_mask {f : Field} {v : Nat} (h : v < 2 ^ f.width) :
    Within (v <<< f.pos) f.mask := by
  rw [within_iff]
  intro i hi
  rw [Nat.testBit_shiftLeft, Bool.and_eq_true, decide_eq_true_eq] at hi
  have hlt : i - f.pos < f.width := by
    by_contra hge
    have hpow : 2 ^ f.width ≤ 2 ^ (i - f.pos) := Nat.pow_le_pow_right (by decide) (by omega)
    rw [Nat.testBit_lt_two_pow (Nat.lt_of_lt_of_le h hpow)] at hi
    exact absurd hi.2 Bool.false_ne_true
  simp only [Field.testBit_mask, Bool.and_eq_true, decide_eq_true_eq]
  omega

/-- A field of a word has a value exactly when the word agrees with it under the mask. -/
theorem Field.and_mask_eq_iff {f : Field} {v : Nat} (h : v < 2 ^ f.width) (w : Nat) :
    w &&& f.mask = v <<< f.pos ↔ f.get w = v := by
  constructor
  · intro heq
    apply Nat.eq_of_testBit_eq
    intro i
    rw [Field.testBit_get]
    have hbit := congrArg (·.testBit (i + f.pos)) heq
    simp only [Nat.testBit_and, Field.testBit_mask, Nat.testBit_shiftLeft] at hbit
    by_cases hi : i < f.width
    · have hlt : i + f.pos < f.pos + f.width := by omega
      simpa [hi, hlt] using hbit
    · have hpow : 2 ^ f.width ≤ 2 ^ i := Nat.pow_le_pow_right (by decide) (by omega)
      simp [hi, Nat.testBit_lt_two_pow (Nat.lt_of_lt_of_le h hpow)]
  · rintro rfl
    apply Nat.eq_of_testBit_eq
    intro i
    rw [Nat.testBit_and, Field.testBit_mask, Nat.testBit_shiftLeft, Field.testBit_get]
    by_cases hi : f.pos ≤ i
    · have hsub : i - f.pos + f.pos = i := Nat.sub_add_cancel hi
      have hlt : i < f.pos + f.width ↔ i - f.pos < f.width := by omega
      simp only [hsub, hlt, hi, decide_true, Bool.true_and]
      rw [Bool.and_comm]
    · simp [hi]

/-- A test under two masks without common bits is the two tests. -/
theorem and_or_eq_iff {w m m' v v' : Nat} (hv : Within v m) (hv' : Within v' m')
    (hapart : ∀ i, m.testBit i = true → m'.testBit i = false) :
    w &&& (m ||| m') = v ||| v' ↔ w &&& m = v ∧ w &&& m' = v' := by
  rw [within_iff] at hv hv'
  constructor
  · intro h
    have hbit : ∀ i, (w.testBit i && (m.testBit i || m'.testBit i)) =
        (v.testBit i || v'.testBit i) := by
      intro i
      simpa only [Nat.testBit_and, Nat.testBit_or] using congrArg (·.testBit i) h
    constructor
    · apply Nat.eq_of_testBit_eq
      intro i
      rw [Nat.testBit_and]
      have := hbit i
      have := hv i
      have := hv' i
      have := hapart i
      grind
    · apply Nat.eq_of_testBit_eq
      intro i
      rw [Nat.testBit_and]
      have := hbit i
      have := hv i
      have := hv' i
      have := hapart i
      grind
  · rintro ⟨rfl, rfl⟩
    apply Nat.eq_of_testBit_eq
    intro i
    simp only [Nat.testBit_and, Nat.testBit_or, Bool.and_or_distrib_left]

/-! ## Settings -/

/-- A field and the value it should have. -/
structure Setting where
  field : Field
  value : Nat
  deriving DecidableEq, Repr

def Setting.Fits (s : Setting) : Prop := s.value < 2 ^ s.field.width

instance (s : Setting) : Decidable s.Fits := inferInstanceAs (Decidable (_ < _))

/-- The mask of a list of settings. -/
def maskOf : List Setting → Nat
  | [] => 0
  | s :: ss => s.field.mask ||| maskOf ss

/-- The value of a list of settings. -/
def valueOf : List Setting → Nat
  | [] => 0
  | s :: ss => s.value <<< s.field.pos ||| valueOf ss

theorem valueOf_within {ss : List Setting} (h : ∀ s ∈ ss, s.Fits) :
    Within (valueOf ss) (maskOf ss) := by
  induction ss with
  | nil => rfl
  | cons s ss ih =>
      exact (Field.within_mask (h s List.mem_cons_self)).or
        (ih fun t ht => h t (List.mem_cons_of_mem s ht))

theorem testBit_maskOf (ss : List Setting) (i : Nat) :
    (maskOf ss).testBit i = true ↔ ∃ s ∈ ss, s.field.mask.testBit i = true := by
  induction ss with
  | nil => simp [maskOf]
  | cons s ss ih =>
      simp only [maskOf, Nat.testBit_or, Bool.or_eq_true, ih, List.mem_cons, exists_eq_or_imp]

/-- Settings of the low `n` bits make a mask and a value of `n` bits. -/
theorem maskOf_lt {ss : List Setting} {n : Nat} (h : ∀ s ∈ ss, s.field.pos + s.field.width ≤ n) :
    maskOf ss < 2 ^ n := by
  apply Nat.lt_pow_two_of_testBit
  intro i hi
  rw [Bool.eq_false_iff]
  intro hbit
  obtain ⟨s, hs, hmask⟩ := (testBit_maskOf ss i).mp hbit
  have hle := h s hs
  simp only [Field.testBit_mask, Bool.and_eq_true, decide_eq_true_eq] at hmask
  omega

theorem valueOf_lt {ss : List Setting} {n : Nat} (hfits : ∀ s ∈ ss, s.Fits)
    (h : ∀ s ∈ ss, s.field.pos + s.field.width ≤ n) : valueOf ss < 2 ^ n := by
  have hle : valueOf ss ≤ maskOf ss := by
    rw [← valueOf_within hfits]
    exact Nat.and_le_right
  exact Nat.lt_of_le_of_lt hle (maskOf_lt h)

/-- A word passes the test of a list of settings exactly when every field has its value. -/
theorem and_maskOf_eq_iff {ss : List Setting} (hfits : ∀ s ∈ ss, s.Fits)
    (hapart : ss.Pairwise fun s t => s.field.Apart t.field) (w : Nat) :
    w &&& maskOf ss = valueOf ss ↔ ∀ s ∈ ss, s.field.get w = s.value := by
  induction ss with
  | nil => simp [maskOf, valueOf]
  | cons s ss ih =>
      obtain ⟨hs, hss⟩ := List.pairwise_cons.mp hapart
      have hfit := hfits s List.mem_cons_self
      have hrest : ∀ t ∈ ss, t.Fits := fun t ht => hfits t (List.mem_cons_of_mem s ht)
      have hbits : ∀ i, s.field.mask.testBit i = true → (maskOf ss).testBit i = false := by
        intro i hi
        rw [Bool.eq_false_iff]
        intro hmask
        obtain ⟨t, ht, hbit⟩ := (testBit_maskOf ss i).mp hmask
        simp only [Field.testBit_mask, Bool.and_eq_true, decide_eq_true_eq] at hi hbit
        rcases hs t ht with h | h <;> omega
      rw [maskOf, valueOf,
        and_or_eq_iff (Field.within_mask hfit) (valueOf_within hrest) hbits,
        Field.and_mask_eq_iff hfit, ih hrest hss]
      simp only [List.forall_mem_cons]

/-- The value of disjoint settings holds each of them. -/
theorem get_valueOf {ss : List Setting} (hfits : ∀ s ∈ ss, s.Fits)
    (hapart : ss.Pairwise fun s t => s.field.Apart t.field) {s : Setting} (hs : s ∈ ss) :
    s.field.get (valueOf ss) = s.value :=
  (and_maskOf_eq_iff hfits hapart _).mp (valueOf_within hfits) s hs

/-- Settings listed from the highest field down: the value is a sum. -/
theorem valueOf_eq_sum {ss : List Setting} (hfits : ∀ s ∈ ss, s.Fits)
    (hbelow : ss.Pairwise fun s t => t.field.pos + t.field.width ≤ s.field.pos) :
    valueOf ss = (ss.map fun s => 2 ^ s.field.pos * s.value).sum := by
  induction ss with
  | nil => rfl
  | cons s ss ih =>
      obtain ⟨hs, hss⟩ := List.pairwise_cons.mp hbelow
      have hrest : ∀ t ∈ ss, t.Fits := fun t ht => hfits t (List.mem_cons_of_mem s ht)
      rw [valueOf, Nat.shiftLeft_eq, Nat.mul_comm,
        ← Nat.two_pow_add_eq_or_of_lt (valueOf_lt hrest hs), ih hrest hss, List.map_cons,
        List.sum_cons]

end Amed.BitFields
