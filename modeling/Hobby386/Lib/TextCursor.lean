import Mathlib.Order.Nat

/-!
# Texts with a cursor

A text is a list of bounded length with a cursor somewhere in it. An array holds a text in its first
cells: inserting shifts the cells behind the cursor up by one and erasing shifts them down, whatever is
behind the text.
-/

namespace TextCursor

/-- A list of at most `room` elements with a cursor in it. -/
@[ext] structure Text (α : Type*) (room : ℕ) where
  chars : List α
  cursor : ℕ
  cursor_le : cursor ≤ chars.length
  length_le : chars.length ≤ room

variable {α : Type*} {room : ℕ}

namespace Text

/-- The text without elements. -/
def empty : Text α room := ⟨[], 0, le_rfl, Nat.zero_le _⟩

/-- Insert an element at the cursor if there is room, and put the cursor behind it. -/
def insert (t : Text α room) (c : α) : Text α room :=
  if h : t.chars.length < room then
    { chars := t.chars.insertIdx t.cursor c
      cursor := t.cursor + 1
      cursor_le := by
        rw [List.length_insertIdx_of_le_length t.cursor_le]
        exact Nat.succ_le_succ t.cursor_le
      length_le := by
        rw [List.length_insertIdx_of_le_length t.cursor_le]
        exact h }
  else t

/-- Remove the element in front of the cursor. -/
def backspace (t : Text α room) : Text α room where
  chars := if 0 < t.cursor then t.chars.eraseIdx (t.cursor - 1) else t.chars
  cursor := t.cursor - 1
  cursor_le := by
    have hle := t.cursor_le
    split
    · rw [List.length_eraseIdx_of_lt (by omega)]
      omega
    · omega
  length_le := by
    split
    · exact (List.length_eraseIdx_le _ _).trans t.length_le
    · exact t.length_le

/-- Move the cursor to the left. -/
def left (t : Text α room) : Text α room where
  chars := t.chars
  cursor := t.cursor - 1
  cursor_le := (Nat.sub_le _ _).trans t.cursor_le
  length_le := t.length_le

/-- Move the cursor to the right. -/
def right (t : Text α room) : Text α room where
  chars := t.chars
  cursor := min (t.cursor + 1) t.chars.length
  cursor_le := min_le_right _ _
  length_le := t.length_le

end Text

/-! ## Arrays -/

/-- The first `n` cells of an array. -/
def cells (a : ℕ → α) (n : ℕ) : List α := (List.range n).map a

variable {a a' : ℕ → α} {n k : ℕ}

/-- The number of cells. -/
@[simp] theorem length_cells (a : ℕ → α) (n : ℕ) : (cells a n).length = n := by simp [cells]

/-- The cells by index. -/
@[simp] theorem getElem_cells {i : ℕ} (h : i < (cells a n).length) : (cells a n)[i] = a i := by
  simp [cells]

/-- When the cells hold a text. -/
theorem cells_eq_iff {s : List α} : cells a n = s ↔ n = s.length ∧
    ∀ i (h : i < s.length), a i = s[i] := by
  constructor
  · rintro rfl
    simp
  · rintro ⟨rfl, hcells⟩
    exact List.ext_getElem (by simp) fun i hi hi' => by rw [getElem_cells, hcells i hi']

/-- The first cells up to one with a mark. -/
theorem takeWhile_cells {p : α → Bool} {m : ℕ} (hlt : n < m) (hkeep : ∀ i < n, p (a i))
    (hstop : ¬p (a n)) :
    (cells a m).takeWhile p = cells a n := by
  obtain ⟨k, rfl⟩ : ∃ k, m = n + (k + 1) := ⟨m - n - 1, by omega⟩
  have hall : ∀ c ∈ cells a n, p c := by
    intro c hc
    obtain ⟨i, hi, rfl⟩ := List.mem_map.mp hc
    exact hkeep i (List.mem_range.mp hi)
  have hcut : cells a (n + (k + 1)) = cells a n ++ a n :: (List.range k).map fun i =>
      a (n + (i + 1)) := by
    simp [cells, List.range_add, List.range_succ_eq_map]
  rw [hcut, List.takeWhile_append_of_pos hall, List.takeWhile_cons_of_neg hstop, List.append_nil]

/-- Cells shifted up from `k` on hold the text with an element inserted at `k`. -/
theorem cells_insertIdx {c : α} (hk : k ≤ n) (hlow : ∀ i < k, a' i = a i) (hat : a' k = c)
    (hhigh : ∀ i, k < i → i ≤ n → a' i = a (i - 1)) : cells a' (n + 1) = (cells a n).insertIdx k c := by
  refine cells_eq_iff.mpr ⟨?_, fun i hi => ?_⟩
  · rw [List.length_insertIdx_of_le_length (by simpa using hk), length_cells]
  · rw [List.length_insertIdx_of_le_length (by simpa using hk), length_cells] at hi
    rw [List.getElem_insertIdx]
    rcases Nat.lt_trichotomy i k with hlt | rfl | hgt
    · rw [dif_pos hlt, getElem_cells, hlow i hlt]
    · rw [dif_neg (Nat.lt_irrefl i), dif_pos rfl, hat]
    · rw [dif_neg (by omega), dif_neg (by omega), getElem_cells, hhigh i hgt (by omega)]

/-- Cells shifted down to `k` hold the text with the element at `k` removed. -/
theorem cells_eraseIdx (hk : k < n) (hlow : ∀ i < k, a' i = a i)
    (hhigh : ∀ i, k ≤ i → i + 1 < n → a' i = a (i + 1)) : cells a' (n - 1) = (cells a n).eraseIdx k := by
  refine cells_eq_iff.mpr ⟨?_, fun i hi => ?_⟩
  · rw [List.length_eraseIdx_of_lt (by simpa using hk), length_cells]
  · rw [List.length_eraseIdx_of_lt (by simpa using hk), length_cells] at hi
    rw [List.getElem_eraseIdx]
    by_cases hlt : i < k
    · rw [dif_pos hlt, getElem_cells, hlow i hlt]
    · rw [dif_neg hlt, getElem_cells, hhigh i (by omega) (by omega)]

end TextCursor
