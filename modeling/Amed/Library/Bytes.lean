import Mathlib.Data.List.Basic
import Mathlib.Tactic.Ring

/-!
# Byte sequences, little-endian numbers and byte stores

A memory is a function from positions to bytes. The file relates slices of a
memory to little-endian numbers, cuts a memory into consecutive fields, and
gives a byte store whose typed cells may overlap, as the members of a C union do.
-/

namespace Amed.Bytes

/-- The `n` bytes of a memory from `pos` on. -/
def slice (mem : Nat → UInt8) (pos n : Nat) : List UInt8 :=
  (List.range n).map fun i => mem (pos + i)

@[simp] theorem slice_length (mem : Nat → UInt8) (pos n : Nat) :
    (slice mem pos n).length = n := by
  simp [slice]

@[simp] theorem slice_zero (mem : Nat → UInt8) (pos : Nat) : slice mem pos 0 = [] := rfl

theorem slice_succ (mem : Nat → UInt8) (pos n : Nat) :
    slice mem pos (n + 1) = mem pos :: slice mem (pos + 1) n := by
  simp [slice, List.range_succ_eq_map, Function.comp_def, Nat.add_comm, Nat.add_left_comm]

@[simp] theorem slice_one (mem : Nat → UInt8) (pos : Nat) : slice mem pos 1 = [mem pos] := by
  simp [slice_succ]

/-- A slice of two lengths is the first one and what is behind it. -/
theorem slice_append (mem : Nat → UInt8) (pos m n : Nat) :
    slice mem pos (m + n) = slice mem pos m ++ slice mem (pos + m) n := by
  induction m generalizing pos with
  | zero => simp
  | succ m ih =>
      rw [Nat.succ_add, slice_succ, slice_succ, ih]
      simp [Nat.add_assoc, Nat.add_comm 1]

/-- Memories that agree on a window have the same slice there. -/
theorem slice_congr {mem mem' : Nat → UInt8} {pos n : Nat}
    (h : ∀ i, pos ≤ i → i < pos + n → mem i = mem' i) :
    slice mem pos n = slice mem' pos n := by
  apply List.map_congr_left
  intro i hi
  exact h _ (Nat.le_add_right _ _) (Nat.add_lt_add_left (List.mem_range.mp hi) _)

/-- The number a byte list denotes, least significant byte first. -/
def leNat : List UInt8 → Nat
  | [] => 0
  | b :: bs => b.toNat + 256 * leNat bs

@[simp] theorem leNat_nil : leNat [] = 0 := rfl

@[simp] theorem leNat_cons (b : UInt8) (bs : List UInt8) :
    leNat (b :: bs) = b.toNat + 256 * leNat bs := rfl

theorem leNat_lt (bs : List UInt8) : leNat bs < 256 ^ bs.length := by
  induction bs with
  | nil => simp
  | cons b bs ih =>
      have hb : b.toNat < 256 := b.toNat_lt
      have hp : 256 ^ (bs.length + 1) = 256 * 256 ^ bs.length := by ring
      simp only [leNat_cons, List.length_cons, hp]
      omega

/-- The lowest `n` bytes of a number, least significant byte first. -/
def toLe : Nat → Nat → List UInt8
  | 0, _ => []
  | n + 1, v => UInt8.ofNat v :: toLe n (v / 256)

@[simp] theorem toLe_length (n v : Nat) : (toLe n v).length = n := by
  induction n generalizing v with
  | zero => rfl
  | succ n ih => simp [toLe, ih]

/-- A number that is written in little-endian bytes is read back, up to its width. -/
theorem leNat_toLe (n v : Nat) : leNat (toLe n v) = v % 256 ^ n := by
  induction n generalizing v with
  | zero => simp [toLe, Nat.mod_one]
  | succ n ih =>
      have hb : (UInt8.ofNat v).toNat = v % 256 := UInt8.toNat_ofNat'
      simp only [toLe, leNat_cons, ih, hb]
      rw [show 256 ^ (n + 1) = 256 * 256 ^ n by ring, Nat.mod_mul]

/-- The value of a `bits`-wide two's complement number. -/
def toSigned (bits v : Nat) : Int :=
  if v < 2 ^ (bits - 1) then v else (v : Int) - 2 ^ bits

/-- The `bits`-wide two's complement representation of an integer. -/
def fromSigned (bits : Nat) (i : Int) : Nat := (i % 2 ^ bits).toNat

theorem fromSigned_lt (bits : Nat) (i : Int) : fromSigned bits i < 2 ^ bits := by
  have hpos : (0 : Int) < 2 ^ bits := Int.pow_pos (by decide)
  have hlt := Int.emod_lt_of_pos i hpos
  rw [fromSigned, Int.toNat_lt (Int.emod_nonneg i (Int.ne_of_gt hpos))]
  push_cast
  exact hlt

theorem toSigned_bounds {bits v : Nat} (hbits : 0 < bits) (h : v < 2 ^ bits) :
    -2 ^ (bits - 1) ≤ toSigned bits v ∧ toSigned bits v < 2 ^ (bits - 1) := by
  obtain ⟨n, rfl⟩ : ∃ n, bits = n + 1 := ⟨bits - 1, by omega⟩
  have hnat : 2 ^ (n + 1) = 2 * 2 ^ n := by ring
  have hint : (2 : Int) ^ (n + 1) = 2 * ((2 ^ n : Nat) : Int) := by
    push_cast
    ring
  have hcast : (2 : Int) ^ n = ((2 ^ n : Nat) : Int) := by simp
  rw [hnat] at h
  unfold toSigned
  rw [Nat.add_sub_cancel, hint, hcast]
  split <;> omega

/-- A signed number in range is read back from its bits. -/
theorem toSigned_fromSigned {bits : Nat} {i : Int} (hbits : 0 < bits)
    (hlow : -2 ^ (bits - 1) ≤ i) (hhigh : i < 2 ^ (bits - 1)) :
    toSigned bits (fromSigned bits i) = i := by
  obtain ⟨n, rfl⟩ : ∃ n, bits = n + 1 := ⟨bits - 1, by omega⟩
  have hint : (2 : Int) ^ (n + 1) = 2 * ((2 ^ n : Nat) : Int) := by
    push_cast
    ring
  have hcast : (2 : Int) ^ n = ((2 ^ n : Nat) : Int) := by simp
  rw [Nat.add_sub_cancel, hcast] at hlow hhigh
  unfold toSigned fromSigned
  rw [Nat.add_sub_cancel, hint]
  by_cases hneg : i < 0
  · have hmod : i % (2 * ((2 ^ n : Nat) : Int)) = i + 2 * ((2 ^ n : Nat) : Int) := by
      rw [← Int.add_emod_right, Int.emod_eq_of_lt (by omega) (by omega)]
    rw [hmod, if_neg (by omega)]
    omega
  · have hmod : i % (2 * ((2 ^ n : Nat) : Int)) = i := Int.emod_eq_of_lt (by omega) (by omega)
    rw [hmod, if_pos (by omega)]
    omega

/-- The fields lie one behind the other in the memory, from `pos` on. -/
def Spells (mem : Nat → UInt8) : Nat → List (List UInt8) → Prop
  | _, [] => True
  | pos, f :: fs => f = slice mem pos f.length ∧ Spells mem (pos + f.length) fs

@[simp] theorem spells_nil (mem : Nat → UInt8) (pos : Nat) : Spells mem pos [] := trivial

/-- Memory spells two lists of fields if it spells the second behind the first. -/
theorem spells_append (mem : Nat → UInt8) (pos : Nat) (fs gs : List (List UInt8)) :
    Spells mem pos (fs ++ gs) ↔
      Spells mem pos fs ∧ Spells mem (pos + fs.flatten.length) gs := by
  induction fs generalizing pos with
  | nil => simp
  | cons f fs ih =>
      simp only [List.cons_append, Spells, ih, List.flatten_cons, List.length_append,
        Nat.add_assoc, and_assoc]

/-- Consecutive fields concatenate to the slice they cover. -/
theorem Spells.flatten {mem : Nat → UInt8} {pos : Nat} {fs : List (List UInt8)}
    (h : Spells mem pos fs) : fs.flatten = slice mem pos fs.flatten.length := by
  induction fs generalizing pos with
  | nil => rfl
  | cons f fs ih =>
      obtain ⟨hf, hfs⟩ := h
      rw [List.flatten_cons, List.length_append, slice_append, ← hf, ← ih hfs]

/-- The widths among `ws` that fit below `limit` when the fields stand one behind the
other from `pos` on; the first one that does not fit ends the list. -/
def fitting (limit : Nat) : Nat → List Nat → List Nat
  | _, [] => []
  | pos, w :: ws => if pos + w ≤ limit then w :: fitting limit (pos + w) ws else []

@[simp] theorem fitting_nil (limit pos : Nat) : fitting limit pos [] = [] := rfl

theorem fitting_cons_of_le {limit pos w : Nat} (ws : List Nat) (h : pos + w ≤ limit) :
    fitting limit pos (w :: ws) = w :: fitting limit (pos + w) ws := by
  simp [fitting, h]

theorem fitting_cons_of_lt {limit pos w : Nat} (ws : List Nat) (h : limit < pos + w) :
    fitting limit pos (w :: ws) = [] := by
  simp [fitting, Nat.not_le.mpr h]

/-- The fields that fit end below the limit. -/
theorem fitting_sum_le {limit pos : Nat} (ws : List Nat) (h : pos ≤ limit) :
    pos + (fitting limit pos ws).sum ≤ limit := by
  induction ws generalizing pos with
  | nil => simpa using h
  | cons w ws ih =>
      by_cases hw : pos + w ≤ limit
      · rw [fitting_cons_of_le ws hw, List.sum_cons, ← Nat.add_assoc]
        exact ih hw
      · rw [fitting_cons_of_lt ws (by omega)]
        exact h

/-- Everything fits exactly when the end of the last field does. -/
theorem fitting_eq_self {limit pos : Nat} {ws : List Nat} (h : pos ≤ limit) :
    fitting limit pos ws = ws ↔ pos + ws.sum ≤ limit := by
  induction ws generalizing pos with
  | nil => simpa using h
  | cons w ws ih =>
      by_cases hw : pos + w ≤ limit
      · rw [fitting_cons_of_le ws hw, List.cons.injEq, ih hw, List.sum_cons, Nat.add_assoc]
        simp
      · rw [fitting_cons_of_lt ws (by omega)]
        simp only [List.nil_eq, reduceCtorEq, List.sum_cons, false_iff]
        omega

/-- Fields behind others that fit are measured from their end. -/
theorem fitting_append_of_fits {limit pos : Nat} {xs : List Nat} (ys : List Nat)
    (h : fitting limit pos xs = xs) :
    fitting limit pos (xs ++ ys) = xs ++ fitting limit (pos + xs.sum) ys := by
  induction xs generalizing pos with
  | nil => simp
  | cons x xs ih =>
      by_cases hx : pos + x ≤ limit
      · rw [fitting_cons_of_le xs hx, List.cons.injEq] at h
        rw [List.cons_append, fitting_cons_of_le _ hx, ih h.2, List.sum_cons, Nat.add_assoc]
        rfl
      · rw [fitting_cons_of_lt xs (by omega)] at h
        exact absurd h.symm (List.cons_ne_nil x xs)

/-- Behind a field that does not fit none is taken. -/
theorem fitting_append_of_not_fits {limit pos : Nat} {xs : List Nat} (ys : List Nat)
    (h : fitting limit pos xs ≠ xs) :
    fitting limit pos (xs ++ ys) = fitting limit pos xs := by
  induction xs generalizing pos with
  | nil => exact absurd rfl h
  | cons x xs ih =>
      by_cases hx : pos + x ≤ limit
      · rw [fitting_cons_of_le xs hx] at h ⊢
        rw [List.cons_append, fitting_cons_of_le _ hx, ih (fun he => h (by rw [he]))]
      · rw [List.cons_append, fitting_cons_of_lt _ (by omega), fitting_cons_of_lt _ (by omega)]

theorem fitting_eq_self_of_append {limit pos : Nat} {xs ys : List Nat}
    (h : fitting limit pos (xs ++ ys) = xs ++ ys) : fitting limit pos xs = xs := by
  induction xs generalizing pos with
  | nil => rfl
  | cons x xs ih =>
      by_cases hx : pos + x ≤ limit
      · rw [List.cons_append, fitting_cons_of_le _ hx, List.cons.injEq] at h
        rw [fitting_cons_of_le _ hx, ih h.2]
      · rw [List.cons_append, fitting_cons_of_lt _ (by omega)] at h
        exact absurd h.symm (List.cons_ne_nil _ _)

/-- A bit of a byte. -/
def bit (b : UInt8) (i : Nat) : Bool := b.toNat.testBit i

/-- The bitfield of a byte that starts at bit `pos`. -/
def bits (b : UInt8) (pos width : Nat) : Nat := b.toNat / 2 ^ pos % 2 ^ width

/-- A typed member of a C union: its offset and its width in bytes. -/
structure Cell where
  offset : Nat
  width : Nat
  deriving DecidableEq, Repr

/-- Two members that share no byte. -/
def Cell.Apart (a b : Cell) : Prop :=
  a.offset + a.width ≤ b.offset ∨ b.offset + b.width ≤ a.offset

instance (a b : Cell) : Decidable (a.Apart b) := inferInstanceAs (Decidable (_ ∨ _))

/-- The bytes of a union. -/
abbrev Store := Nat → UInt8

namespace Store

def read (p : Store) (c : Cell) : Nat := leNat (slice p c.offset c.width)

theorem read_lt (p : Store) (c : Cell) : p.read c < 256 ^ c.width := by
  have hlt := leNat_lt (slice p c.offset c.width)
  rwa [slice_length] at hlt

/-- Write a member, truncated to its width; the other bytes keep their value. -/
def write (p : Store) (c : Cell) (v : Nat) : Store := fun i =>
  if c.offset ≤ i ∧ i < c.offset + c.width then
    (toLe c.width v).getD (i - c.offset) 0
  else p i

theorem slice_write_self (p : Store) (c : Cell) (v : Nat) :
    slice (p.write c v) c.offset c.width = toLe c.width v := by
  apply List.ext_getElem
  · simp
  · intro i h₁ h₂
    simp only [slice_length] at h₁
    simp [slice, write, List.getElem_map, h₁, List.getD_eq_getElem?_getD]

theorem slice_write_apart (p : Store) {c d : Cell} (v : Nat) (h : d.Apart c) :
    slice (p.write c v) d.offset d.width = slice p d.offset d.width := by
  apply slice_congr
  intro i h₁ h₂
  have hout : ¬(c.offset ≤ i ∧ i < c.offset + c.width) := by
    rcases h with h | h <;> omega
  simp only [write, if_neg hout]

@[simp] theorem read_write_self (p : Store) (c : Cell) (v : Nat) :
    (p.write c v).read c = v % 256 ^ c.width := by
  rw [read, slice_write_self, leNat_toLe]

/-- A write to one cell leaves a cell apart from it alone. -/
theorem read_write_apart (p : Store) {c d : Cell} (v : Nat) (h : d.Apart c) :
    (p.write c v).read d = p.read d := by
  rw [read, slice_write_apart p v h, read]

end Store

end Amed.Bytes
