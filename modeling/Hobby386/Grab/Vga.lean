import Hobby386.Fs.State

/-!
# The text screen

The video memory and the cursor registers of the display, and the character output of `printf` on them. A
position is an index into the 25 rows of 80 cells; one outside of them makes the driver panic.
-/

namespace Hobby386

/-- The number of cells on the screen. -/
@[simp] abbrev screenCells : ℕ := 80 * 25

/-- `BGND_BLACK | FGND_WHITE`. -/
@[simp] abbrev blackWhite : UInt8 := 0x0f

/-- `BGND_BLUE | FGND_WHITE`. -/
@[simp] abbrev blueWhite : UInt8 := 0x1f

/-- The video memory from `textbuf` on and the two cursor registers. -/
structure Vga where
  textbuf : ℕ → UInt16
  cursorLow : UInt8
  cursorHigh : UInt8

/-- A cell of the screen, a character with its color. -/
def cell (c color : UInt8) : UInt16 := c.toUInt16 ||| color.toUInt16 <<< 8

/-- `vga_get_cursor`. -/
def vgaGetCursor (v : Vga) : UInt16 := v.cursorLow.toUInt16 ||| v.cursorHigh.toUInt16 <<< 8

/-- `vga_set_cursor`. -/
def vgaSetCursor (v : Vga) (off : UInt16) : Except Fault Vga :=
  if screenCells ≤ off.toNat then .error .panic
  else .ok { v with cursorLow := off.toUInt8, cursorHigh := (off >>> 8).toUInt8 }

/-- `vga_putchar`. -/
def vgaPutchar (v : Vga) (off : UInt16) (c color : UInt8) : Except Fault Vga :=
  if screenCells ≤ off.toNat then .error .panic
  else
    let color := if color = 0 then blackWhite else color
    .ok { v with textbuf := Function.update v.textbuf off.toNat (cell c color) }

/-- The video memory one row further: the rows but the first are copied, and the characters of the
last one are cleared. -/
def scrollRows (textbuf : ℕ → UInt16) : ℕ → UInt16 := fun i =>
  if i < 24 * 80 then textbuf (i + 80)
  else if i < screenCells then textbuf i &&& 0xff00
  else textbuf i

/-- `vga_scroll`. -/
def vgaScroll (v : Vga) (off : UInt16) : UInt16 × Vga :=
  if off.toNat < screenCells then (off, v)
  else (24 * 80, { v with textbuf := scrollRows v.textbuf })

/-- `vga_set_cursor(vga_scroll(off))`. -/
def scrollTo (v : Vga) (off : UInt16) : Except Fault Vga :=
  let r := vgaScroll v off
  vgaSetCursor r.2 r.1

/-- `vga_reset`. -/
def vgaReset (v : Vga) : Except Fault Vga :=
  vgaSetCursor
    { v with textbuf := fun i => if i < screenCells then v.textbuf i &&& 0xff00 else v.textbuf i } 0

/-- `vga_set_color`. -/
def vgaSetColor (v : Vga) (row : ℤ) (color : UInt8) : Except Fault Vga :=
  if row < 0 ∨ 25 ≤ row then .error .panic
  else
    let off := row.toNat * 80
    .ok { v with
      textbuf := fun i =>
        if off ≤ i ∧ i < off + 80 then (v.textbuf i &&& (0x00ff : UInt16)) ||| (color.toUInt16 <<< 8)
        else v.textbuf i }

/-- The static `putchar` of `printf.c`, with its static `color`. -/
def putcharIn (color : UInt8) (v : Vga) (c : UInt8) : Except Fault Vga := do
  let off := (vgaGetCursor v).toNat
  if c = 10 ∨ c = 13 then scrollTo v (.ofNat (off + 80 - off % 80))
  else if c = 8 then
    if off ≠ 0 then
      let v ← vgaPutchar v (.ofNat (off - 1)) 32 color
      scrollTo v (.ofNat (off - 1))
    else scrollTo v (.ofNat off)
  else if c = 9 then scrollTo v (.ofNat (off + 4))
  else
    let v ← vgaPutchar v (.ofNat off) c color
    scrollTo v (.ofNat (off + 1))

/-- A sequence of characters in any color. -/
def putcharsIn (color : UInt8) : Vga → List UInt8 → Except Fault Vga
  | v, [] => .ok v
  | v, c :: cs => do
    let v ← putcharIn color v c
    putcharsIn color v cs

/-- `putchar` in the default color. -/
def putchar (v : Vga) (c : UInt8) : Except Fault Vga := putcharIn 0 v c

/-- `printf` of a text without conversions. -/
def putchars (v : Vga) (cs : List UInt8) : Except Fault Vga := putcharsIn 0 v cs

/-! ## Cells -/

/-- The character of a cell. -/
def charOf (w : UInt16) : UInt8 := w.toUInt8

/-- The color of a cell. -/
def colorOf (w : UInt16) : UInt8 := (w >>> 8).toUInt8

/-- The character of a cell. -/
@[simp] theorem charOf_cell (c color : UInt8) : charOf (cell c color) = c := by
  apply UInt8.eq_of_toBitVec_eq
  simp only [charOf, cell]
  ext i hi
  simp

/-- The color of a cell. -/
@[simp] theorem colorOf_cell (c color : UInt8) : colorOf (cell c color) = color := by
  apply UInt8.eq_of_toBitVec_eq
  simp only [colorOf, cell]
  ext i hi
  simp [show 8 + i < 16 by omega, show i < 16 by omega, BitVec.getLsbD_eq_getElem hi]

/-- A cell consists of its character and its color. -/
theorem cell_charOf_colorOf (w : UInt16) : cell (charOf w) (colorOf w) = w := by
  apply UInt16.toNat.inj
  have hlt : w.toNat < 65536 := w.toNat_lt
  have hlow : w.toNat % 2 ^ 8 < 2 ^ 8 := Nat.mod_lt _ (by decide)
  have hshift : UInt16.toNat 8 % 16 = 8 := rfl
  simp only [cell, charOf, colorOf, UInt16.toNat_or, UInt16.toNat_shiftLeft, UInt8.toNat_toUInt16,
    UInt16.toNat_toUInt8, UInt16.toNat_shiftRight, hshift, Nat.shiftRight_eq_div_pow]
  rw [Nat.mod_eq_of_lt (show w.toNat / 2 ^ 8 < 2 ^ 8 by omega), Nat.shiftLeft_eq,
    Nat.mod_eq_of_lt (show w.toNat / 2 ^ 8 * 2 ^ 8 < 2 ^ 16 by omega), Nat.or_comm, ← Nat.shiftLeft_eq,
    ← Nat.shiftLeft_add_eq_or_of_lt hlow, Nat.shiftLeft_eq]
  omega

/-- A cleared cell has no character. -/
@[simp] theorem charOf_clear (w : UInt16) : charOf (w &&& 0xff00) = 0 := by
  apply UInt8.eq_of_toBitVec_eq
  simp only [charOf]
  ext i hi
  simp

/-- A cleared cell keeps its color. -/
@[simp] theorem colorOf_clear (w : UInt16) : colorOf (w &&& 0xff00) = colorOf w := by
  have hmask : ∀ i < 8, (65280#16).getLsbD (8 + i) = true := by decide
  apply UInt8.eq_of_toBitVec_eq
  simp only [colorOf]
  ext i hi
  simp [hmask i hi]

/-- A recolored cell keeps its character. -/
@[simp] theorem charOf_recolor (w : UInt16) (color : UInt8) :
    charOf ((w &&& (0x00ff : UInt16)) ||| (color.toUInt16 <<< 8)) = charOf w := by
  have hmask : ∀ (i : ℕ) (h : i < 8), (255#8)[i] = true := by decide
  apply UInt8.eq_of_toBitVec_eq
  simp only [charOf]
  ext i hi
  simp [hmask i hi]

/-- A recolored cell has the new color. -/
@[simp] theorem colorOf_recolor (w : UInt16) (color : UInt8) :
    colorOf ((w &&& (0x00ff : UInt16)) ||| (color.toUInt16 <<< 8)) = color := by
  have hmask : ∀ i < 8, (255#16).getLsbD (8 + i) = false := by decide
  apply UInt8.eq_of_toBitVec_eq
  simp only [colorOf]
  ext i hi
  have hlow := hmask i hi
  rw [BitVec.getLsbD_eq_getElem (by omega)] at hlow
  simp [show 8 + i < 16 by omega, show i < 16 by omega, hlow, BitVec.getLsbD_eq_getElem hi]

/-! ## The driver -/

/-- The screen with the cursor at a position. -/
def Vga.moveTo (v : Vga) (off : UInt16) : Vga :=
  { v with cursorLow := off.toUInt8, cursorHigh := (off >>> 8).toUInt8 }

/-- The screen with a cell replaced. -/
def Vga.put (v : Vga) (n : ℕ) (c color : UInt8) : Vga :=
  { v with textbuf := Function.update v.textbuf n (cell c color) }

/-- The text memory behind a character put on the screen. -/
@[simp] theorem Vga.put_textbuf (v : Vga) (n : ℕ) (c color : UInt8) :
    (v.put n c color).textbuf = Function.update v.textbuf n (cell c color) := rfl

/-- A character put on the screen does not move the cursor. -/
@[simp] theorem vgaGetCursor_put (v : Vga) (n : ℕ) (c color : UInt8) :
    vgaGetCursor (v.put n c color) = vgaGetCursor v := rfl

/-- The two registers hold the whole position. -/
@[simp] theorem vgaGetCursor_moveTo (v : Vga) (off : UInt16) : vgaGetCursor (v.moveTo off) = off :=
  cell_charOf_colorOf off

variable {v : Vga} {off : UInt16} {n : ℕ}

/-- A position on the screen fits the type of the driver's arguments. -/
theorem toNat_ofNat_of_lt (h : n ≤ screenCells + 80) : (UInt16.ofNat n).toNat = n := by
  rw [UInt16.toNat_ofNat']
  simp only [screenCells] at h
  omega

/-- The cursor moves to a cell of the screen. -/
theorem vgaSetCursor_of_lt (h : off.toNat < screenCells) : vgaSetCursor v off = .ok (v.moveTo off) :=
  if_neg (Nat.not_le.mpr h)

/-- A character at a position on the screen. -/
theorem vgaPutchar_returns (h : n < screenCells) (c color : UInt8) :
    vgaPutchar v (.ofNat n) c color = .ok (v.put n c (if color = 0 then blackWhite else color)) := by
  rw [vgaPutchar, toNat_ofNat_of_lt (by omega), if_neg (Nat.not_le.mpr h)]
  rfl

/-- A character is put into a cell of the screen. -/
theorem vgaPutchar_ofNat (h : n < screenCells) (c : UInt8) {color : UInt8} (hcolor : color ≠ 0) :
    vgaPutchar v (.ofNat n) c color = .ok (v.put n c color) := by
  rw [vgaPutchar_returns h, if_neg hcolor]

/-- A character behind the screen ends in a panic. -/
theorem vgaPutchar_panic (h : n = screenCells) (c color : UInt8) :
    vgaPutchar v (.ofNat n) c color = .error .panic := by
  rw [vgaPutchar, toNat_ofNat_of_lt (by omega), if_pos h.ge]

/-- On the screen the cursor just moves. -/
theorem scrollTo_of_lt (h : off.toNat < screenCells) : scrollTo v off = .ok (v.moveTo off) := by
  rw [scrollTo, vgaScroll, if_pos h]
  exact vgaSetCursor_of_lt h

/-- Behind the last cell the screen scrolls and the cursor goes to the last row. -/
theorem scrollTo_of_ge (h : screenCells ≤ off.toNat) :
    ∃ v', scrollTo v off = .ok v' ∧ (vgaGetCursor v').toNat = 24 * 80 := by
  rw [scrollTo, vgaScroll, if_neg (Nat.not_lt.mpr h)]
  dsimp only
  refine ⟨_, vgaSetCursor_of_lt (by decide), ?_⟩
  rw [vgaGetCursor_moveTo]
  rfl

/-- The cursor stays on the screen. -/
theorem scrollTo_returns (v : Vga) (off : UInt16) :
    ∃ v', scrollTo v off = .ok v' ∧ (vgaGetCursor v').toNat < screenCells := by
  rcases lt_or_ge off.toNat screenCells with h | h
  · exact ⟨_, scrollTo_of_lt h, by rwa [vgaGetCursor_moveTo]⟩
  · obtain ⟨v', hscroll, hcursor⟩ := scrollTo_of_ge (v := v) h
    exact ⟨v', hscroll, hcursor ▸ by decide⟩

/-- A character printed from a position on the screen leaves the cursor on it. -/
theorem putcharIn_returns (h : (vgaGetCursor v).toNat < screenCells) (color c : UInt8) :
    ∃ v', putcharIn color v c = .ok v' ∧ (vgaGetCursor v').toNat < screenCells := by
  rw [putcharIn]
  split
  · exact scrollTo_returns _ _
  split
  · split
    · rw [vgaPutchar_returns (by omega), ok_bind]
      exact scrollTo_returns _ _
    · exact scrollTo_returns _ _
  split
  · exact scrollTo_returns _ _
  · rw [vgaPutchar_returns h, ok_bind]
    exact scrollTo_returns _ _

/-- With the cursor on the screen, printing returns with the cursor on the screen. -/
theorem putcharsIn_returns (h : (vgaGetCursor v).toNat < screenCells) (color : UInt8) (cs : List UInt8) :
    ∃ v', putcharsIn color v cs = .ok v' ∧ (vgaGetCursor v').toNat < screenCells := by
  induction cs generalizing v with
  | nil => exact ⟨v, rfl, h⟩
  | cons c cs ih =>
    obtain ⟨v', hputchar, hcursor⟩ := putcharIn_returns h color c
    rw [putcharsIn, hputchar, ok_bind]
    exact ih hcursor

/-- The first character is printed before the others. -/
theorem putchars_cons (v : Vga) (c : UInt8) (cs : List UInt8) :
    putchars v (c :: cs) = putchar v c >>= fun v => putchars v cs := rfl

/-- A text printed from a position on the screen leaves the cursor on it. -/
theorem putchars_returns (h : (vgaGetCursor v).toNat < screenCells) (cs : List UInt8) :
    ∃ v', putchars v cs = .ok v' ∧ (vgaGetCursor v').toNat < screenCells :=
  putcharsIn_returns h 0 cs

end Hobby386
