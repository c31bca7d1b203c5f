import Hobby386.Grab.Vga
import Mathlib.Data.List.Induction

/-!
# Lines on the screen

What the screen shows when lines are printed one below the other from a cleared screen on. The cursor
stands on the row behind the last line; from the last row on every line scrolls the others up by one.
-/

namespace Hobby386

/-- The characters that `putchar` does not put on the screen. -/
def controls : List UInt8 := [8, 9, 10, 13]

/-- Row `r` shows a text and nothing behind it. -/
def Vga.ShowsRow (v : Vga) (r : ℕ) (s : List UInt8) : Prop :=
  ∀ j < 80, charOf (v.textbuf (80 * r + j)) = s.getD j 0

/-- The screen shows rows from the top on, and the cursor stands behind a text on the row below them. -/
structure Vga.Typing (v : Vga) (rows : List (List UInt8)) (s : List UInt8) : Prop where
  count : rows.length ≤ 24
  length : s.length < 80
  cursor : (vgaGetCursor v).toNat = 80 * rows.length + s.length
  shows : ∀ r < 25, v.ShowsRow r ((rows ++ [s]).getD r [])

/-- The rows after another line. -/
def pushRow (rows : List (List UInt8)) (s : List UInt8) : List (List UInt8) :=
  if rows.length < 24 then rows ++ [s] else rows.tail ++ [s]

/-- The first 24 lines are kept, and of more lines the last 24. -/
theorem foldl_pushRow (lines : List (List UInt8)) :
    lines.foldl pushRow [] = lines.drop (lines.length - 24) := by
  induction lines using List.reverseRecOn with
  | nil => rfl
  | append_singleton lines s ih =>
    rw [List.foldl_append, List.foldl_cons, List.foldl_nil, ih, pushRow, List.length_append,
      List.length_singleton, List.length_drop]
    split
    · rw [Nat.sub_eq_zero_of_le (show lines.length ≤ 24 by omega), List.drop_zero,
        Nat.sub_eq_zero_of_le (show lines.length + 1 ≤ 24 by omega), List.drop_zero]
    · rw [List.tail_drop, List.drop_append_of_le_length (by omega)]
      congr 2
      omega

variable {v v' : Vga} {rows : List (List UInt8)} {s : List UInt8} {c : UInt8}

/-- A list that is longer by an element. -/
theorem getD_append_singleton {α : Type} (s : List α) (c d : α) (j : ℕ) :
    (s ++ [c]).getD j d = if j = s.length then c else s.getD j d := by
  simp only [List.getD_eq_getElem?_getD, List.getElem?_append]
  grind

/-- A default value at the end of a list is not seen. -/
theorem getD_append_default {α : Type} (s : List α) (d : α) (j : ℕ) :
    (s ++ [d]).getD j d = s.getD j d := by
  rw [getD_append_singleton]
  split
  · rename_i hj
    rw [List.getD_eq_default _ _ hj.ge]
  · rfl

/-- The screen after scrolling. -/
def Vga.scrolled (v : Vga) : Vga := { v with textbuf := scrollRows v.textbuf }

/-- Behind the last cell the screen scrolls by one row. -/
theorem scrollTo_scrolls {off : UInt16} (h : screenCells ≤ off.toNat) :
    scrollTo v off = .ok (v.scrolled.moveTo (24 * 80)) := by
  rw [scrollTo, vgaScroll, if_neg (Nat.not_lt.mpr h)]
  exact vgaSetCursor_of_lt (show (24 * 80 : UInt16).toNat < screenCells by decide)

/-- Scrolling shows every row one further up. -/
theorem Vga.ShowsRow.scrolled {r : ℕ} (h : v.ShowsRow (r + 1) s) (hr : r < 24) :
    v.scrolled.ShowsRow r s := by
  intro j hj
  show charOf (scrollRows v.textbuf (80 * r + j)) = _
  rw [scrollRows, if_pos (by omega), show 80 * r + j + 80 = 80 * (r + 1) + j by omega, h j hj]

/-- Scrolling clears the last row. -/
theorem showsRow_scrolled_last (v : Vga) : v.scrolled.ShowsRow 24 [] := by
  intro j hj
  show charOf (scrollRows v.textbuf (80 * 24 + j)) = _
  rw [scrollRows, if_neg (by omega), if_pos (by simp only [screenCells]; omega), charOf_clear]
  rfl

/-- A plain character goes behind the text. -/
theorem Vga.Typing.putchar (h : v.Typing rows s) (hc : c ∉ controls) (hlen : s.length + 1 < 80) :
    ∃ v', Hobby386.putchar v c = .ok v' ∧ v'.Typing rows (s ++ [c]) := by
  have hcount := h.count
  have hcursor := h.cursor
  have hoff : (vgaGetCursor v).toNat + 1 < screenCells := by
    simp only [screenCells]
    omega
  have hnext : (UInt16.ofNat ((vgaGetCursor v).toNat + 1)).toNat = (vgaGetCursor v).toNat + 1 :=
    toNat_ofNat_of_lt (by omega)
  simp only [controls, List.mem_cons, List.not_mem_nil, or_false, not_or] at hc
  refine ⟨(v.put (vgaGetCursor v).toNat c blackWhite).moveTo (.ofNat ((vgaGetCursor v).toNat + 1)),
    ?_, ?_⟩
  · rw [Hobby386.putchar, putcharIn, if_neg (by simp [hc]), if_neg hc.1, if_neg hc.2.1,
      vgaPutchar_returns (by omega), ok_bind, if_pos rfl, scrollTo_of_lt (by rw [hnext]; exact hoff)]
  · refine ⟨hcount, by simpa using hlen, ?_, fun r hr j hj => ?_⟩
    · rw [vgaGetCursor_moveTo, hnext, hcursor, List.length_append, List.length_singleton]
      rfl
    · have hold := h.shows r hr j hj
      rw [getD_append_singleton] at hold ⊢
      show charOf (Function.update v.textbuf (vgaGetCursor v).toNat (cell c blackWhite) (80 * r + j)) = _
      by_cases hrow : r = rows.length
      · rw [if_pos hrow] at hold ⊢
        rw [getD_append_singleton]
        by_cases hcol : j = s.length
        · rw [if_pos hcol, show 80 * r + j = (vgaGetCursor v).toNat by omega, Function.update_self,
            charOf_cell]
        · rw [if_neg hcol, Function.update_of_ne (by omega), hold]
      · have hlength := h.length
        rw [if_neg hrow] at hold ⊢
        rw [Function.update_of_ne (by omega), hold]

/-- The end of a line. -/
theorem Vga.Typing.newline (h : v.Typing rows s) :
    ∃ v', Hobby386.putchar v 10 = .ok v' ∧ v'.Typing (pushRow rows s) [] := by
  have hcount := h.count
  have hcursor := h.cursor
  have hlength := h.length
  have hoff : (vgaGetCursor v).toNat + 80 - (vgaGetCursor v).toNat % 80 =
      80 * (rows.length + 1) := by omega
  rw [Hobby386.putchar, putcharIn, if_pos (.inl rfl), hoff]
  have hnext : (UInt16.ofNat (80 * (rows.length + 1))).toNat = 80 * (rows.length + 1) :=
    toNat_ofNat_of_lt (by simp only [screenCells]; omega)
  rw [pushRow]
  rcases Nat.lt_or_ge rows.length 24 with hlt | hge
  · refine ⟨_, scrollTo_of_lt (by rw [hnext]; simp only [screenCells]; omega), ?_⟩
    rw [if_pos hlt]
    refine ⟨?_, by decide, ?_, fun r hr => ?_⟩
    · rw [List.length_append, List.length_singleton]
      exact hlt
    · rw [vgaGetCursor_moveTo, hnext, List.length_append, List.length_singleton]
      rfl
    · rw [getD_append_default]
      exact h.shows r hr
  · have hfull : rows.length = 24 := Nat.le_antisymm hcount hge
    have hlen : (rows.tail ++ [s]).length = 24 := by
      rw [List.length_append, List.length_tail, List.length_singleton]
      omega
    refine ⟨_, scrollTo_scrolls (by rw [hnext]; simp only [screenCells]; omega), ?_⟩
    rw [if_neg (Nat.not_lt.mpr hge)]
    refine ⟨hlen.le, by decide, ?_, fun r hr => ?_⟩
    · rw [vgaGetCursor_moveTo, hlen]
      rfl
    · rw [getD_append_default]
      rcases Nat.lt_or_ge r 24 with hlt | hlast
      · have htail : (rows.tail ++ [s]).getD r [] = (rows ++ [s]).getD (r + 1) [] := by
          rw [← List.tail_append_of_ne_nil (List.ne_nil_of_length_pos (by omega))]
          simp only [List.getD_eq_getElem?_getD, List.getElem?_tail]
        rw [htail]
        exact (h.shows (r + 1) (by omega)).scrolled hlt
      · obtain rfl : r = 24 := by omega
        rw [List.getD_eq_default _ _ hlen.le]
        exact showsRow_scrolled_last v

/-- Plain characters go behind the text. -/
theorem Vga.Typing.putchars (h : v.Typing rows s) {t : List UInt8} (ht : ∀ c ∈ t, c ∉ controls)
    (hlen : s.length + t.length < 80) : ∃ v', Hobby386.putchars v t = .ok v' ∧
    v'.Typing rows (s ++ t) := by
  induction t generalizing v s with
  | nil => exact ⟨v, rfl, by rwa [List.append_nil]⟩
  | cons c t ih =>
    rw [List.forall_mem_cons] at ht
    rw [List.length_cons] at hlen
    obtain ⟨v₁, hput, htyping⟩ := h.putchar ht.1 (by omega)
    obtain ⟨v₂, hputs, htyping'⟩ :=
      ih htyping ht.2 (by rw [List.length_append, List.length_singleton]; omega)
    refine ⟨v₂, by rw [putchars_cons, hput, ok_bind, hputs], ?_⟩
    rwa [List.append_assoc, List.singleton_append] at htyping'

/-- Two texts are printed one after the other. -/
theorem putchars_append (v : Vga) (s t : List UInt8) :
    putchars v (s ++ t) = putchars v s >>= fun v => putchars v t := by
  induction s generalizing v with
  | nil => rfl
  | cons c s ih =>
    rw [List.cons_append, putchars_cons, putchars_cons]
    cases hput : Hobby386.putchar v c with
    | error e => rfl
    | ok v' => exact ih v'

/-- A plain text and the end of the line make another row. -/
theorem Vga.Typing.line (h : v.Typing rows []) {t : List UInt8} (ht : ∀ c ∈ t, c ∉ controls)
    (hlen : t.length < 80) :
    ∃ v', Hobby386.putchars v (t ++ [10]) = .ok v' ∧ v'.Typing (pushRow rows t) [] := by
  obtain ⟨v₁, hputs, htyping⟩ := h.putchars ht (by simpa using hlen)
  obtain ⟨v₂, hput, htyping'⟩ := htyping.newline
  refine ⟨v₂, ?_, htyping'⟩
  rw [putchars_append, hputs, ok_bind, putchars_cons, hput]
  rfl

/-! ## What any output keeps -/

/-- Every cell of the screen has a property. -/
def Vga.AllCells (p : UInt16 → Prop) (v : Vga) : Prop := ∀ i < screenCells, p (v.textbuf i)

/-- A property of cells that printing keeps: it holds of what is printed and does not get lost by
clearing. -/
structure Printed (p : UInt16 → Prop) : Prop where
  char : ∀ c, c ∉ controls → p (cell c blackWhite)
  clear : ∀ w, p w → p (w &&& 0xff00)

section Printed

variable {p : UInt16 → Prop} (hp : Printed p) (h : v.AllCells p)

include hp h

/-- Scrolling keeps what holds of all characters. -/
theorem Vga.AllCells.scrollTo {off : UInt16} (hscroll : Hobby386.scrollTo v off = .ok v') :
    v'.AllCells p := by
  rcases Nat.lt_or_ge off.toNat screenCells with hlt | hge
  · rw [scrollTo_of_lt hlt] at hscroll
    cases hscroll
    exact h
  · rw [scrollTo_scrolls hge] at hscroll
    cases hscroll
    intro i hi
    show p (scrollRows v.textbuf i)
    rw [scrollRows]
    split
    · exact h _ (by simp only [screenCells]; omega)
    · exact hp.clear _ (h i hi)

/-- A character put on the screen keeps what holds of all characters, if it holds of this one. -/
theorem Vga.AllCells.put {off : UInt16} (hc : c ∉ controls) (hput : vgaPutchar v off c 0 = .ok v') :
    v'.AllCells p := by
  rw [vgaPutchar] at hput
  split at hput
  · cases hput
  · cases hput
    intro i hi
    show p (Function.update v.textbuf off.toNat (cell c blackWhite) i)
    by_cases heq : i = off.toNat
    · rw [heq, Function.update_self]
      exact hp.char c hc
    · rw [Function.update_of_ne heq]
      exact h i hi

/-- `putchar` keeps what holds of all characters, if it holds of the printable ones. -/
theorem Vga.AllCells.putchar (hput : Hobby386.putchar v c = .ok v') : v'.AllCells p := by
  rw [Hobby386.putchar, putcharIn] at hput
  split at hput
  · exact h.scrollTo hp hput
  · rename_i hline
    split at hput
    · split at hput
      · rw [bind_eq_ok] at hput
        obtain ⟨v₁, hblank, hput⟩ := hput
        exact Vga.AllCells.scrollTo hp (h.put hp (by decide) hblank) hput
      · exact h.scrollTo hp hput
    · rename_i hback
      split at hput
      · exact h.scrollTo hp hput
      · rename_i htab
        rw [bind_eq_ok] at hput
        obtain ⟨v₁, hchar, hput⟩ := hput
        refine Vga.AllCells.scrollTo hp (h.put hp ?_ hchar) hput
        rw [not_or] at hline
        simp [controls, hline.1, hline.2, hback, htab]

/-- Printing keeps what holds of all characters, if it holds of the printable ones. -/
theorem Vga.AllCells.putchars {t : List UInt8} (hput : Hobby386.putchars v t = .ok v') :
    v'.AllCells p := by
  induction t generalizing v with
  | nil =>
    cases hput
    exact h
  | cons c t ih =>
    rw [putchars_cons, bind_eq_ok] at hput
    obtain ⟨v₁, hchar, hput⟩ := hput
    exact ih (h.putchar hp hchar) hput

end Printed

/-! ## The cleared screen -/

/-- `vga_reset` clears the characters and keeps the colors. -/
theorem vgaReset_eq (v : Vga) : ∃ v', vgaReset v = .ok v' ∧ v'.Typing [] [] ∧
    ∀ i < screenCells, charOf (v'.textbuf i) = 0 ∧ colorOf (v'.textbuf i) = colorOf (v.textbuf i) := by
  have hcells : ∀ i < screenCells, (if i < screenCells then v.textbuf i &&& 0xff00 else v.textbuf i) =
      v.textbuf i &&& 0xff00 := fun i hi => if_pos hi
  refine ⟨_, vgaSetCursor_of_lt (by decide), ⟨by decide, by decide, ?_, fun r hr j hj => ?_⟩,
    fun i hi => ?_⟩
  · rw [vgaGetCursor_moveTo]
    rfl
  · show charOf (if 80 * r + j < screenCells then v.textbuf (80 * r + j) &&& 0xff00 else _) = _
    rw [if_pos (by simp only [screenCells]; omega), charOf_clear]
    cases r with
    | zero => rfl
    | succ r => rfl
  · show charOf (if i < screenCells then v.textbuf i &&& 0xff00 else _) = 0 ∧
      colorOf (if i < screenCells then v.textbuf i &&& 0xff00 else _) = _
    rw [if_pos hi]
    exact ⟨charOf_clear _, colorOf_clear _⟩

end Hobby386
