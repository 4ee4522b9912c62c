import Mathlib.Data.Nat.ModEq
import Mathlib.Tactic.Ring

/-!
# Runs on a cycle

A run of `s + 1` positions on a cycle of `e` positions, moved down by `r`. A run stays inside a
block of the cycle just where it ends before the block does.
-/

namespace Amed.Runs

/-- The position belongs to the run. -/
def InRun (e s r i : Nat) : Prop := (i + r) % e ≤ s

instance (e s r i : Nat) : Decidable (InRun e s r i) := inferInstanceAs (Decidable (_ ≤ _))

/-- Where a run starts. -/
def start (e r : Nat) : Nat := (e - r % e) % e

variable {e s r : Nat}

theorem start_lt (he : 0 < e) : start e r < e := Nat.mod_lt _ he

theorem start_add (he : 0 < e) : (start e r + r) % e = 0 := by
  have hlt := Nat.mod_lt r he
  calc (start e r + r) % e
      = ((e - r % e) + r % e) % e := by rw [start, Nat.mod_add_mod, Nat.add_mod_mod]
    _ = e % e := by rw [Nat.sub_add_cancel (Nat.le_of_lt hlt)]
    _ = 0 := Nat.mod_self e

/-- The positions of a run, one after the other. -/
theorem start_add_mod (he : 0 < e) {j : Nat} (hj : j < e) : ((start e r + j) % e + r) % e = j := by
  calc ((start e r + j) % e + r) % e
      = (start e r + r + j) % e := by rw [Nat.mod_add_mod, Nat.add_right_comm]
    _ = ((start e r + r) % e + j) % e := by rw [Nat.mod_add_mod]
    _ = j := by rw [start_add he, Nat.zero_add, Nat.mod_eq_of_lt hj]

theorem eq_start_add (he : 0 < e) {i : Nat} (hi : i < e) :
    i = (start e r + (i + r) % e) % e := by
  calc i = ((start e r + r) % e + i) % e := by rw [start_add he, Nat.zero_add, Nat.mod_eq_of_lt hi]
    _ = (start e r + (i + r)) % e := by rw [Nat.mod_add_mod, Nat.add_assoc, Nat.add_comm r i]
    _ = (start e r + (i + r) % e) % e := by rw [Nat.add_mod_mod]

theorem inRun_start_add (he : 0 < e) {j : Nat} (hj : j < e) (hjs : j ≤ s) :
    InRun e s r ((start e r + j) % e) := by
  rw [InRun, start_add_mod he hj]
  exact hjs

theorem exists_inRun (he : 0 < e) (s r : Nat) : ∃ i < e, InRun e s r i :=
  ⟨_, Nat.mod_lt _ he, inRun_start_add (j := 0) he he (Nat.zero_le s)⟩

theorem exists_not_inRun (hs : s + 1 < e) (r : Nat) : ∃ i < e, ¬InRun e s r i := by
  have he : 0 < e := Nat.zero_lt_of_lt hs
  refine ⟨(start e r + (s + 1)) % e, Nat.mod_lt _ he, ?_⟩
  rw [InRun, start_add_mod he hs]
  omega

/-- A run does not repeat within the cycle. -/
theorem not_periodic (hs : s + 1 < e) {d : Nat} (hd : 0 < d) (hde : d < e) :
    ¬∀ i, InRun e s r (i + d) ↔ InRun e s r i := by
  intro hperiod
  have he : 0 < e := Nat.zero_lt_of_lt hs
  -- the last position of the run and the one behind it, both moved by `d`
  have hlast := hperiod ((start e r + s) % e)
  have hbehind := hperiod ((start e r + (s + 1)) % e)
  rw [InRun, InRun, Nat.add_right_comm, ← Nat.mod_add_mod, start_add_mod he (by omega)] at hlast
  rw [InRun, InRun, Nat.add_right_comm, ← Nat.mod_add_mod, start_add_mod he hs] at hbehind
  rcases Nat.lt_or_ge (s + d) e with hin | hwrap
  · rw [Nat.mod_eq_of_lt hin] at hlast
    omega
  · rw [Nat.mod_eq_sub_mod (by omega), Nat.mod_eq_of_lt (by omega)] at hbehind
    omega

/-- The positions outside a run are a run. -/
theorem not_inRun_iff (hs : s + 1 < e) (i : Nat) :
    ¬InRun e s r i ↔ InRun e (e - s - 2) (r + (e - s - 1)) i := by
  have hlt := Nat.mod_lt (i + r) (Nat.zero_lt_of_lt hs)
  have hshift : (i + (r + (e - s - 1))) % e = ((i + r) % e + (e - s - 1)) % e := by
    rw [Nat.mod_add_mod, Nat.add_assoc]
  rw [InRun, InRun, hshift]
  generalize (i + r) % e = j at hlt
  by_cases hj : j ≤ s
  · rw [Nat.mod_eq_of_lt (by omega)]
    omega
  · have hwrap : j + (e - s - 1) = (j - s - 1) + e := by omega
    rw [hwrap, Nat.add_mod_right, Nat.mod_eq_of_lt (by omega)]
    omega

/-- A run lies within one of the blocks of `w` positions. -/
def Confined (w e s r : Nat) : Prop := ∃ k, ∀ i < e, InRun e s r i → i / w = k

theorem confined_iff {w m : Nat} (hw : 0 < w) (hm : 2 ≤ m) (hs : s < w * m) :
    Confined w (w * m) s r ↔ start (w * m) r % w + s < w := by
  have he : 0 < w * m := Nat.mul_pos hw (by omega)
  have hstart := start_lt (r := r) he
  have hsplit := Nat.div_add_mod (start (w * m) r) w
  have hblock : start (w * m) r / w < m := Nat.div_lt_of_lt_mul hstart
  generalize hq : start (w * m) r / w = q at hsplit hblock
  constructor
  · rintro ⟨k, hk⟩
    by_contra hlong
    have hrest := Nat.mod_lt (start (w * m) r) hw
    have hfirst : start (w * m) r / w = k := by
      have hrun := inRun_start_add (s := s) (r := r) he he (Nat.zero_le s)
      rw [Nat.add_zero, Nat.mod_eq_of_lt hstart] at hrun
      exact hk _ hstart hrun
    -- the position behind the block of the start
    have hnext : start (w * m) r + (w - start (w * m) r % w) = w * (q + 1) := by
      rw [Nat.mul_add, Nat.mul_one]
      omega
    have hbound : w * (q + 1) ≤ w * m := Nat.mul_le_mul_left w hblock
    have hlt : w - start (w * m) r % w < w * m := by
      calc w - start (w * m) r % w ≤ s := by omega
        _ < w * m := hs
    have hrun := inRun_start_add (s := s) (r := r) he hlt (by omega)
    have hsecond := hk _ (Nat.mod_lt _ he) hrun
    rw [hnext] at hsecond
    have hmod : w * (q + 1) % (w * m) = w * ((q + 1) % m) := Nat.mul_mod_mul_left w (q + 1) m
    rw [hmod, Nat.mul_div_cancel_left _ hw, ← hfirst, hq] at hsecond
    rcases Nat.lt_or_ge (q + 1) m with hin | hout
    · rw [Nat.mod_eq_of_lt hin] at hsecond
      omega
    · have hlast : q + 1 = m := by omega
      rw [hlast, Nat.mod_self] at hsecond
      omega
  · intro hshort
    refine ⟨q, fun i hi hrun => ?_⟩
    rw [InRun] at hrun
    have hpos := eq_start_add (r := r) he hi
    generalize (i + r) % (w * m) = j at hrun hpos
    have hlt : start (w * m) r + j < w * (q + 1) := by
      rw [Nat.mul_add, Nat.mul_one]
      omega
    have hle : w * (q + 1) ≤ w * m := Nat.mul_le_mul_left w hblock
    rw [hpos, Nat.mod_eq_of_lt (Nat.lt_of_lt_of_le hlt hle)]
    apply Nat.div_eq_of_lt_le
    · rw [Nat.mul_comm]
      omega
    · rw [Nat.mul_comm (q + 1) w]
      exact hlt

end Amed.Runs
