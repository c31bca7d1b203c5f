import Mathlib.Data.List.Chain
import Mathlib.Data.Nat.Notation

/-!
# Consecutive regions of a range

A region is a first position and a length. A list of regions tiles a range when the first region
starts with the range, every other one where its predecessor stops, and the last one stops with
the range. Tiles come in order, do not overlap and stay inside the range.
-/

namespace Regions

/-- The positions `first`, ..., `first + length - 1`. -/
structure Region where
  first : ℕ
  length : ℕ
  deriving DecidableEq

/-- The position behind a region. -/
def Region.stop (r : Region) : ℕ := r.first + r.length

/-- Position `n` belongs to the region. -/
def Region.Contains (r : Region) (n : ℕ) : Prop := r.first ≤ n ∧ n < r.stop

/-- Region `r` ends before region `s` begins, or where it begins. -/
def Region.Before (r s : Region) : Prop := r.stop ≤ s.first

/-- Every region starts where its predecessor stops. -/
def Adjacent (rs : List Region) : Prop := rs.IsChain fun r s => r.stop = s.first

/-- The regions fill the positions `low`, ..., `high - 1` one after the other. -/
def Tiles : (low : ℕ) → List Region → (high : ℕ) → Prop
  | low, [], high => low = high
  | low, r :: rs, high => r.first = low ∧ Tiles r.stop rs high

variable {r s : Region} {rs : List Region} {low high n : ℕ}

/-- A region does not end before it starts. -/
theorem Region.first_le_stop (r : Region) : r.first ≤ r.stop := Nat.le_add_right _ _

/-- Regions of which one ends before the other have no position in common. -/
theorem Region.Before.not_contains (h : r.Before s) (hr : r.Contains n) : ¬s.Contains n :=
  fun hs => absurd (hr.2.trans_le h) (Nat.not_lt.mpr hs.1)

/-- A tiled range does not end before it starts. -/
theorem Tiles.le (h : Tiles low rs high) : low ≤ high := by
  induction rs generalizing low with
  | nil => exact Nat.le_of_eq h
  | cons r rs ih =>
    obtain ⟨rfl, htail⟩ := h
    exact r.first_le_stop.trans (ih htail)

/-- Tiles stay inside the range. -/
theorem Tiles.inside (h : Tiles low rs high) (hr : r ∈ rs) : low ≤ r.first ∧ r.stop ≤ high := by
  induction rs generalizing low with
  | nil => simp at hr
  | cons s rs ih =>
    obtain ⟨rfl, htail⟩ := h
    rcases List.mem_cons.mp hr with rfl | hr
    · exact ⟨Nat.le_refl _, htail.le⟩
    · obtain ⟨hlow, hhigh⟩ := ih htail hr
      exact ⟨s.first_le_stop.trans hlow, hhigh⟩

/-- The regions of a tiling meet. -/
theorem Tiles.adjacent (h : Tiles low rs high) : Adjacent rs := by
  induction rs generalizing low with
  | nil => exact .nil
  | cons r rs ih =>
    obtain ⟨-, htail⟩ := h
    cases rs with
    | nil => exact .singleton r
    | cons s rs => exact .cons_cons htail.1.symm (ih htail)

/-- Tiles come in the order of the list. -/
theorem Tiles.pairwise (h : Tiles low rs high) : rs.Pairwise Region.Before := by
  induction rs generalizing low with
  | nil => exact .nil
  | cons r rs ih => exact .cons (fun s hs => (h.2.inside hs).1) (ih h.2)

end Regions
