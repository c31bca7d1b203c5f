import Mathlib.Algebra.Order.Ring.Nat
import Mathlib.Logic.Function.Basic

/-!
# A window on an unbounded page

A text is written onto a page of rows of `w` cells that has no last row. A screen of `h` rows shows
the first rows of the page until the text goes on below them, and then the rows up to the one where
it ends. The screen is kept up to date by scrolling it up by one row at a time, with a copy of its
rows in place.
-/

namespace PageWindow

variable {α : Type*}

/-- The cells of a page, and the position behind the text. -/
structure Page (α : Type*) where
  cells : ℕ → α
  pos : ℕ

/-- The page without a text. -/
def Page.blank (z : α) : Page α := ⟨fun _ => z, 0⟩

/-- Write a cell. -/
def Page.type (p : Page α) (c : α) : Page α := ⟨Function.update p.cells p.pos c, p.pos + 1⟩

/-- Go on in the next row. -/
def Page.newline (w : ℕ) (p : Page α) : Page α := { p with pos := p.pos + w - p.pos % w }

/-- Nothing is written behind the text. -/
def Page.Fresh (z : α) (p : Page α) : Prop := ∀ k ≥ p.pos, p.cells k = z

/-- The first row of the page that a screen of `h` rows shows. -/
def top (w h pos : ℕ) : ℕ := if pos / w < h then 0 else pos / w - (h - 1)

/-- A screen one row further, with an empty last row. -/
def scroll (w h : ℕ) (z : α) (s : ℕ → α) : ℕ → α := fun i => if i + w < w * h then s (i + w) else z

/-- The screen and the cursor show a window on the page. -/
structure Shows (w h : ℕ) (s : ℕ → α) (cursor : ℕ) (p : Page α) : Prop where
  cells : ∀ i < w * h, s i = p.cells (w * top w h p.pos + i)
  cursor : w * top w h p.pos + cursor = p.pos

variable {w h pos pos' cursor : ℕ} {z : α} {s : ℕ → α} {p : Page α}

/-- A blank page is fresh. -/
theorem fresh_blank (z : α) : (Page.blank z).Fresh z := fun _ _ => rfl

/-- Typing keeps a page fresh. -/
theorem Page.Fresh.type (hp : p.Fresh z) (c : α) : (p.type c).Fresh z := by
  intro k hk
  rw [Page.type] at hk ⊢
  dsimp only at hk ⊢
  rw [Function.update_of_ne (by omega)]
  exact hp k (by omega)

/-- A new line keeps a page fresh. -/
theorem Page.Fresh.newline (hp : p.Fresh z) (hw : 0 < w) : (p.newline w).Fresh z := by
  intro k hk
  have hmod : p.pos % w < w := Nat.mod_lt _ hw
  rw [Page.newline] at hk
  dsimp only at hk
  exact hp k (by omega)

/-- The page is shown up to its end. -/
theorem Shows.cursor_lt (hs : Shows w h s cursor p) (hw : 0 < w) (hh : 0 < h) : cursor < w * h := by
  have hsplit := Nat.div_add_mod p.pos w
  have hmod : p.pos % w < w := Nat.mod_lt _ hw
  have hrows : p.pos / w < top w h p.pos + h := by
    rw [top]
    split <;> omega
  have hlt : w * (p.pos / w) + w ≤ w * top w h p.pos + w * h := by
    rw [← Nat.mul_add_one, ← Nat.mul_add]
    exact Nat.mul_le_mul_left w hrows
  have hcursor := hs.cursor
  omega

/-- Within a row, and up to the first cell of the next one, the window stays until the text leaves
it, and then moves down by one row. -/
theorem top_eq (hw : 0 < w) (hh : 0 < h) (hle : pos ≤ pos') (hrow : pos' ≤ w * (pos / w + 1)) :
    top w h pos' = top w h pos ∧ pos' < w * (top w h pos + h) ∨
      top w h pos' = top w h pos + 1 ∧ pos' = w * (top w h pos + h) := by
  rcases Nat.lt_or_ge pos' (w * (pos / w + 1)) with hlt | hge
  · have hdiv : pos' / w = pos / w :=
      le_antisymm (Nat.lt_succ_iff.mp (Nat.div_lt_of_lt_mul hlt)) (Nat.div_le_div_right hle)
    have hrows : pos / w + 1 ≤ top w h pos + h := by
      rw [top]
      split <;> omega
    exact .inl ⟨by rw [top, top, hdiv], hlt.trans_le (Nat.mul_le_mul_left w hrows)⟩
  · obtain rfl : pos' = w * (pos / w + 1) := le_antisymm hrow hge
    have hdiv : w * (pos / w + 1) / w = pos / w + 1 := Nat.mul_div_cancel_left _ hw
    rcases Nat.lt_or_ge (pos / w + 1) h with hfirst | hlast
    · have htop : top w h pos = 0 := if_pos (by omega)
      rw [htop, top, hdiv, if_pos hfirst, Nat.zero_add]
      exact .inl ⟨rfl, Nat.mul_lt_mul_of_pos_left hfirst hw⟩
    · have htop : top w h pos + h = pos / w + 1 := by
        rw [top]
        split <;> omega
      rw [htop, top, hdiv, if_neg (by omega)]
      exact .inr ⟨by omega, rfl⟩

/-- After a cell is written under the cursor, the screen shows the written page around its old end. -/
theorem Shows.put (hs : Shows w h s cursor p) (c : α) :
    Shows w h (Function.update s cursor c) cursor ⟨Function.update p.cells p.pos c, p.pos⟩ where
  cells i hi := by
    have hcursor := hs.cursor
    dsimp only
    by_cases hic : i = cursor
    · rw [hic, Function.update_self, hcursor, Function.update_self]
    · rw [Function.update_of_ne hic, Function.update_of_ne (by omega)]
      exact hs.cells i hi
  cursor := hs.cursor

/-- When the end of the text moves on within the screen, the cursor follows. -/
theorem Shows.advance (hs : Shows w h s cursor p) (hw : 0 < w) (hh : 0 < h) {n : ℕ}
    (hrow : p.pos + n ≤ w * (p.pos / w + 1)) (hin : cursor + n < w * h) :
    Shows w h s (cursor + n) { p with pos := p.pos + n } := by
  have hcursor := hs.cursor
  rcases top_eq hw hh (Nat.le_add_right _ _) hrow with ⟨htop, -⟩ | ⟨-, hend⟩
  · refine ⟨fun i hi => ?_, ?_⟩
    · rw [htop]
      exact hs.cells i hi
    · rw [htop]
      dsimp only
      omega
  · rw [Nat.mul_add] at hend
    omega

/-- When the end of the text leaves the screen, it is in the first cell below the screen, and the
screen is scrolled with the cursor in its last row. -/
theorem Shows.scroll (hs : Shows w h s cursor p) (hw : 0 < w) (hh : 0 < h) {n : ℕ}
    (hrow : p.pos + n ≤ w * (p.pos / w + 1)) (hout : w * h ≤ cursor + n)
    (hfresh : ∀ k ≥ p.pos + n, p.cells k = z) :
    Shows w h (PageWindow.scroll w h z s) (w * (h - 1)) { p with pos := p.pos + n } := by
  have hcursor := hs.cursor
  have hlast : w * (h - 1) + w = w * h := by rw [← Nat.mul_add_one, Nat.sub_add_cancel hh]
  rcases top_eq hw hh (Nat.le_add_right _ _) hrow with ⟨-, hend⟩ | ⟨htop, hend⟩
  · rw [Nat.mul_add] at hend
    omega
  · rw [Nat.mul_add] at hend
    refine ⟨fun i hi => ?_, ?_⟩
    · rw [htop, Nat.mul_add_one, PageWindow.scroll]
      dsimp only
      split
      · rename_i hrows
        rw [hs.cells _ hrows]
        congr 1
        omega
      · exact (hfresh _ (by omega)).symm
    · rw [htop, Nat.mul_add_one]
      dsimp only
      omega

/-! ## Copies within one array -/

/-- `for (i = 0; i < n; i++) d[i] = s[i]` where `d` and `s` point into one array. -/
def copyWithin (a : ℕ → α) (d s : ℕ) : (n : ℕ) → ℕ → α
  | 0 => a
  | n + 1 => Function.update (copyWithin a d s n) (d + n) (copyWithin a d s n (s + n))

/-- A copy to lower indices reads every cell before it is overwritten. -/
theorem copyWithin_eq (a : ℕ → α) {d s : ℕ} (hle : d ≤ s) (n i : ℕ) :
    copyWithin a d s n i = if d ≤ i ∧ i < d + n then a (s + (i - d)) else a i := by
  induction n generalizing i with
  | zero => rw [copyWithin, if_neg (by omega)]
  | succ n ih =>
    rw [copyWithin]
    by_cases hi : i = d + n
    · rw [hi, Function.update_self, ih, if_neg (by omega), if_pos (by omega)]
      congr 1
      omega
    · rw [Function.update_of_ne hi, ih]
      by_cases hin : d ≤ i ∧ i < d + n
      · rw [if_pos hin, if_pos (by omega)]
      · rw [if_neg hin, if_neg (by omega)]

end PageWindow
