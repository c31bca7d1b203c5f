import Mathlib.Data.Nat.Basic
import Mathlib.Tactic.Common

/-!
# Lanes of a word

A word of `n * w` bits consists of `n` lanes of `w` bits. A mask that keeps one lane and a shift
that moves a narrow value into one act on the lanes one by one.
-/

namespace Lanes

variable {w m j k : ℕ}

/-- Lane `j` of a word, of `w` bits. -/
def lane (w : ℕ) (x : BitVec m) (j : ℕ) : BitVec w := (x >>> (w * j)).setWidth w

/-- The mask that keeps lane `k`. -/
def keep (m w k : ℕ) : BitVec m := (BitVec.allOnes w).setWidth m <<< (w * k)

/-- The bits of a lane. -/
theorem getElem_lane (x : BitVec m) (j : ℕ) {i : ℕ} (hi : i < w) :
    (lane w x j)[i] = x.getLsbD (w * j + i) := by
  simp [lane]

/-- The lanes of a disjunction. -/
@[simp] theorem lane_or (x y : BitVec m) (j : ℕ) : lane w (x ||| y) j = lane w x j ||| lane w y j := by
  ext i hi
  rw [BitVec.getElem_or, getElem_lane, getElem_lane, getElem_lane, BitVec.getLsbD_or]

/-- The bits of a lane lie between its two bounds. -/
theorem lane_bit_iff {i : ℕ} (hi : i < w) : w * k ≤ w * j + i ∧ w * j + i < w * k + w ↔ j = k := by
  constructor
  · rintro ⟨hlow, hhigh⟩
    have hj : (w * j + i) / w = j := by
      rw [Nat.mul_add_div (by omega), Nat.div_eq_of_lt hi, Nat.add_zero]
    rw [← hj]
    exact Nat.div_eq_of_lt_le (by rwa [Nat.mul_comm]) (by rwa [Nat.add_one_mul, Nat.mul_comm k])
  · rintro rfl
    omega

/-- A narrow value moved into lane `k` has nothing in the others. -/
theorem lane_shiftLeft (v : BitVec w) (hj : w * (j + 1) ≤ m) :
    lane w (v.setWidth m <<< (w * k)) j = if j = k then v else 0 := by
  rw [Nat.mul_add_one] at hj
  ext i hi
  rw [getElem_lane, BitVec.getLsbD_shiftLeft, BitVec.getLsbD_setWidth]
  have hbit := lane_bit_iff (j := j) (k := k) hi
  split
  · rename_i h
    subst h
    simp [show w * j + i < m by omega, show i < m by omega, BitVec.getLsbD_eq_getElem hi]
  · rename_i h
    have hzero : (0 : BitVec w)[i] = false := by simp
    rw [hzero]
    rcases Nat.lt_or_ge (w * j + i) (w * k) with hlow | hhigh
    · simp [hlow]
    · have hout : w ≤ w * j + i - w * k := by
        have := mt hbit.mp h
        omega
      simp [BitVec.getLsbD_of_ge _ _ hout]

/-- The mask keeps its own lane only. -/
theorem lane_and_keep (x : BitVec m) (hj : w * (j + 1) ≤ m) :
    lane w (x &&& keep m w k) j = if j = k then lane w x j else 0 := by
  have hmask : lane w (keep m w k) j = if j = k then BitVec.allOnes w else 0 := lane_shiftLeft _ hj
  have hand : lane w (x &&& keep m w k) j = lane w x j &&& lane w (keep m w k) j := by
    ext i hi
    rw [BitVec.getElem_and, getElem_lane, getElem_lane, getElem_lane, BitVec.getLsbD_and]
  rw [hand, hmask]
  split
  · exact BitVec.and_allOnes
  · exact BitVec.and_zero

/-- A word with another lane `k`. -/
def setLane (w : ℕ) (x : BitVec m) (k : ℕ) (v : BitVec w) : BitVec m :=
  x &&& ~~~keep m w k ||| v.setWidth m <<< (w * k)

/-- Its own lane is the new one, and the others are the old ones. -/
theorem lane_setLane (x : BitVec m) (v : BitVec w) (hj : w * (j + 1) ≤ m) :
    lane w (setLane w x k v) j = if j = k then v else lane w x j := by
  have hmask : lane w (keep m w k) j = if j = k then BitVec.allOnes w else 0 := lane_shiftLeft _ hj
  have hclear : lane w (x &&& ~~~keep m w k) j = lane w x j &&& ~~~lane w (keep m w k) j := by
    rw [Nat.mul_add_one] at hj
    ext i hi
    rw [BitVec.getElem_and, BitVec.getElem_not, getElem_lane, getElem_lane, getElem_lane,
      BitVec.getLsbD_and, BitVec.getLsbD_not, decide_eq_true (show w * j + i < m by omega),
      Bool.true_and]
  rw [setLane, lane_or, hclear, hmask, lane_shiftLeft _ hj]
  split
  · rw [BitVec.not_allOnes, BitVec.and_zero, BitVec.zero_or]
  · simp

/-- A word is known by its lanes. -/
theorem ext_lanes {n : ℕ} (hw : 0 < w) (hm : m ≤ w * n) {x y : BitVec m}
    (h : ∀ j < n, lane w x j = lane w y j) : x = y := by
  ext i hi
  have hlane := congrArg (·.getLsbD (i % w))
    (h (i / w) (Nat.div_lt_of_lt_mul (Nat.lt_of_lt_of_le hi hm)))
  have hmod := Nat.mod_lt i hw
  simp only [BitVec.getLsbD_eq_getElem hmod, getElem_lane, Nat.div_add_mod,
    BitVec.getLsbD_eq_getElem hi] at hlane
  exact hlane

end Lanes
