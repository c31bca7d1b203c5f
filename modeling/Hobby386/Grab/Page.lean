import Hobby386.Grab.Rows
import Hobby386.Lib.Page

/-!
# Output of any length

What `putchar` does to the screen, over output of any length. The text is one on a page that has no
last row, and the screen is a window on it. The screen is scrolled by an overlapping copy of the
video memory in place.
-/

namespace Hobby386

open PageWindow

/-! ## The page -/

/-- The page with another character. -/
def printOn (p : Page UInt8) (c : UInt8) : Page UInt8 :=
  if c = 10 ∨ c = 13 then p.newline 80 else p.type c

/-- The page that a sequence of characters describes. -/
def pageOf (cs : List UInt8) : Page UInt8 := cs.foldl printOn (.blank 0)

/-- The first row of the page on the screen: the first one while the text ends in a row below 25,
and then the row 24 rows above the one in which it ends. -/
def firstRow (pos : ℕ) : ℕ := if pos / 80 < 25 then 0 else pos / 80 - 24

/-- The characters on the screen are those of a window on the page, and the cursor stands at the end
of the text. -/
structure Vga.ShowsPage (v : Vga) (p : Page UInt8) : Prop where
  cells : ∀ i < screenCells, charOf (v.textbuf i) = p.cells (80 * firstRow p.pos + i)
  cursor : 80 * firstRow p.pos + (vgaGetCursor v).toNat = p.pos

/-- A screen without characters, with the cursor in its first cell. -/
structure Vga.Blank (v : Vga) : Prop where
  cells : ∀ i < screenCells, charOf (v.textbuf i) = 0
  cursor : (vgaGetCursor v).toNat = 0

variable {v : Vga} {p : Page UInt8} {color c : UInt8}

/-- A page is shown when the text grid shows it. -/
theorem showsPage_iff : v.ShowsPage p ↔
    Shows 80 25 (fun i => charOf (v.textbuf i)) (vgaGetCursor v).toNat p :=
  ⟨fun h => ⟨h.cells, h.cursor⟩, fun h => ⟨h.cells, h.cursor⟩⟩

/-- The cursor stands on the screen. -/
theorem Vga.ShowsPage.cursor_lt (h : v.ShowsPage p) : (vgaGetCursor v).toNat < screenCells :=
  (showsPage_iff.mp h).cursor_lt (by decide) (by decide)

/-- A character that is put under the cursor. -/
theorem Vga.ShowsPage.put (h : v.ShowsPage p) (c color : UInt8) :
    (v.put (vgaGetCursor v).toNat c color).ShowsPage ⟨Function.update p.cells p.pos c, p.pos⟩ := by
  have hput := (showsPage_iff.mp h).put c
  refine ⟨fun i hi => ?_, hput.cursor⟩
  refine Eq.trans ?_ (hput.cells i hi)
  rw [Vga.put_textbuf]
  by_cases hcursor : i = (vgaGetCursor v).toNat
  · rw [hcursor, Function.update_self, Function.update_self, charOf_cell]
  · rw [Function.update_of_ne hcursor, Function.update_of_ne hcursor]

/-- The cursor moves on with the end of the text, and the screen is scrolled when it leaves the
screen. -/
theorem Vga.ShowsPage.scrollTo (h : v.ShowsPage p) {n : ℕ} (hrow : p.pos + n ≤ 80 * (p.pos / 80 + 1))
    (hfresh : ∀ k ≥ p.pos + n, p.cells k = 0) :
    ∃ v', Hobby386.scrollTo v (.ofNat ((vgaGetCursor v).toNat + n)) = .ok v' ∧
      v'.ShowsPage { p with pos := p.pos + n } := by
  have hshows := showsPage_iff.mp h
  have hlt := h.cursor_lt
  have hn : (UInt16.ofNat ((vgaGetCursor v).toNat + n)).toNat = (vgaGetCursor v).toNat + n :=
    toNat_ofNat_of_lt (by omega)
  rcases Nat.lt_or_ge ((vgaGetCursor v).toNat + n) screenCells with hin | hout
  · refine ⟨_, scrollTo_of_lt (by rwa [hn]), ?_⟩
    have hmoved := hshows.advance (by decide) (by decide) hrow hin
    refine ⟨hmoved.cells, ?_⟩
    rw [vgaGetCursor_moveTo, hn]
    exact hmoved.cursor
  · refine ⟨_, scrollTo_scrolls (by rwa [hn]), ?_⟩
    have hscrolled := hshows.scroll (by decide) (by decide) hrow hout hfresh
    refine ⟨fun i hi => ?_, ?_⟩
    · refine Eq.trans ?_ (hscrolled.cells i hi)
      show charOf (scrollRows v.textbuf i) = _
      rw [scrollRows, PageWindow.scroll]
      by_cases hrows : i < 24 * 80
      · rw [if_pos hrows, if_pos (by omega)]
      · rw [if_neg hrows, if_pos hi, if_neg (by omega), charOf_clear]
    · rw [vgaGetCursor_moveTo]
      exact hscrolled.cursor

/-- Any other character than a backspace or a tab is printed on the page. -/
theorem Vga.ShowsPage.putcharIn (h : v.ShowsPage p) (hfresh : p.Fresh 0) (color : UInt8)
    (hc : c ≠ 8 ∧ c ≠ 9) :
    ∃ v', Hobby386.putcharIn color v c = .ok v' ∧ v'.ShowsPage (printOn p c) ∧
      (printOn p c).Fresh 0 := by
  rw [Hobby386.putcharIn, printOn]
  have hcursor := h.cursor
  by_cases hline : c = 10 ∨ c = 13
  · obtain ⟨v', hscroll, hshows⟩ :=
      h.scrollTo (n := 80 - p.pos % 80) (by omega) fun k hk => hfresh k (by omega)
    refine ⟨v', ?_, ?_, ?_⟩
    · rw [if_pos hline, ← hscroll]
      congr 2
      omega
    · rw [if_pos hline, Page.newline, Nat.add_sub_assoc (by omega)]
      exact hshows
    · rw [if_pos hline]
      exact hfresh.newline (by decide)
  · have hput := h.put c (if color = 0 then blackWhite else color)
    obtain ⟨v', hscroll, hshows⟩ := hput.scrollTo (n := 1) (by dsimp only; omega) (hfresh.type c)
    refine ⟨v', ?_, ?_, ?_⟩
    · rw [if_neg hline, if_neg hc.1, if_neg hc.2, vgaPutchar_returns h.cursor_lt, ok_bind]
      exact hscroll
    · rw [if_neg hline]
      exact hshows
    · rw [if_neg hline]
      exact hfresh.type c

/-- What is printed is shown on the page. -/
theorem Vga.ShowsPage.putcharsIn (h : v.ShowsPage p) (hfresh : p.Fresh 0) (color : UInt8)
    {cs : List UInt8} (hcs : ∀ c ∈ cs, c ≠ 8 ∧ c ≠ 9) :
    ∃ v', Hobby386.putcharsIn color v cs = .ok v' ∧ v'.ShowsPage (cs.foldl printOn p) := by
  induction cs generalizing v p with
  | nil => exact ⟨v, rfl, h⟩
  | cons c cs ih =>
    rw [List.forall_mem_cons] at hcs
    obtain ⟨v', hput, hshows, hfresh'⟩ := h.putcharIn hfresh color hcs.1
    rw [Hobby386.putcharsIn, hput, ok_bind]
    exact ih hshows hfresh' hcs.2

/-- From a cursor on the screen any characters are printed without a panic, and the cursor stays on
the screen. From a blank screen on, characters other than backspaces and tabs leave the window on
the page that they describe. -/
theorem putcharsIn_page (color : UInt8) (v : Vga) (cs : List UInt8) :
    ((vgaGetCursor v).toNat < 80 * 25 →
      ∃ v', putcharsIn color v cs = .ok v' ∧ (vgaGetCursor v').toNat < 80 * 25) ∧
    (v.Blank → (∀ c ∈ cs, c ≠ 8 ∧ c ≠ 9) → ∃ v', putcharsIn color v cs = .ok v' ∧
      v'.ShowsPage (pageOf cs)) := by
  refine ⟨fun h => putcharsIn_returns h color cs, fun hblank hcs => ?_⟩
  have hshows : v.ShowsPage (.blank 0) := ⟨hblank.cells, by rw [hblank.cursor]; rfl⟩
  exact hshows.putcharsIn (fresh_blank 0) color hcs

/-- A screen without characters. -/
def clearScreen : Vga := ⟨fun _ => cell 0 blackWhite, 0, 0⟩

/-- The cleared screen is blank. -/
theorem clearScreen_blank : clearScreen.Blank := ⟨fun _ _ => charOf_cell 0 blackWhite, by decide⟩

/-- A word, a new line and another word. -/
theorem putcharsIn_page_blank : clearScreen.Blank ∧
    (∃ v', putcharsIn 0 clearScreen [104, 9, 8] = .ok v' ∧ (vgaGetCursor v').toNat < 80 * 25) ∧
    ∃ v', putcharsIn 0 clearScreen [104, 105, 10, 33] = .ok v' ∧
    v'.ShowsPage (pageOf [104, 105, 10, 33]) :=
  ⟨clearScreen_blank, (putcharsIn_page 0 clearScreen [104, 9, 8]).1 (by decide),
    (putcharsIn_page 0 clearScreen [104, 105, 10, 33]).2 clearScreen_blank (by simp)⟩

/-! ## Scrolling in place -/

/-- The bytes of the video memory. -/
def bytesOf (textbuf : ℕ → UInt16) : ℕ → UInt8 := fun k =>
  if k % 2 = 0 then charOf (textbuf (k / 2)) else colorOf (textbuf (k / 2))

/-- The cells in the bytes of the video memory. -/
def cellsOf (bytes : ℕ → UInt8) : ℕ → UInt16 := fun i => cell (bytes (2 * i)) (bytes (2 * i + 1))

/-- The cells of the text memory are pairs of its bytes. -/
theorem cellsOf_bytesOf (textbuf : ℕ → UInt16) (i : ℕ) :
    cell (bytesOf textbuf (2 * i)) (bytesOf textbuf (2 * i + 1)) = textbuf i := by
  rw [bytesOf, bytesOf, if_pos (by omega), if_neg (by omega), show 2 * i / 2 = i by omega,
    show (2 * i + 1) / 2 = i by omega, cell_charOf_colorOf]

/-- The copy of `vga_scroll`, byte by byte in place, and the loop over the last row. -/
theorem scrollRows_eq_memcpy (textbuf : ℕ → UInt16) (i : ℕ) :
    scrollRows textbuf i =
      (let copied := cellsOf (copyWithin (bytesOf textbuf) 0 (2 * 80) (24 * 80 * 2))
      if 24 * 80 ≤ i ∧ i < 25 * 80 then copied i &&& 0xff00 else copied i) := by
  dsimp only
  rw [scrollRows, cellsOf, copyWithin_eq _ (by decide), copyWithin_eq _ (by decide)]
  by_cases hrows : i < 24 * 80
  · rw [if_pos hrows, if_neg (by omega), if_pos (by omega), if_pos (by omega),
      show 2 * 80 + (2 * i - 0) = 2 * (i + 80) by omega,
      show 2 * 80 + (2 * i + 1 - 0) = 2 * (i + 80) + 1 by omega, cellsOf_bytesOf]
  · rw [if_neg hrows, if_neg (show ¬(0 ≤ 2 * i ∧ 2 * i < 0 + 24 * 80 * 2) by omega),
      if_neg (show ¬(0 ≤ 2 * i + 1 ∧ 2 * i + 1 < 0 + 24 * 80 * 2) by omega), cellsOf_bytesOf]
    by_cases hlast : i < 80 * 25
    · rw [if_pos hlast, if_pos (by omega)]
    · rw [if_neg hlast, if_neg (by omega)]

end Hobby386
