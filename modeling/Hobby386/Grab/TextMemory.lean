import Hobby386.Grab.Vga
import Hobby386.Lib.Alike

/-!
# The display adapter

The driver of the text screen works on bytes in memory, which it also copies with `memcpy` onto each
other, and on the registers of the CRT controller, of which one at a time is chosen with an index.
Whatever is called and in which order, the screen is what the driver makes of an array of cells and
a cursor, calls that panic included, and no other byte of the memory and no other register changes.
-/

namespace Hobby386

open Runs

/-- The memory, and the CRT controller with its index and its registers. -/
structure Adapter where
  mem : Memory
  index : UInt8
  regs : UInt8 → UInt8

namespace Adapter

/-- The address of `textbuf`. -/
@[simp] abbrev textbuf : ℕ := 0xb8000

/-- `PORT_INDEX`. -/
@[simp] abbrev portIndex : ℕ := 0x3d4

/-- `PORT_DATA`. -/
@[simp] abbrev portData : ℕ := 0x3d5

/-- `IDX_CURSOR_CTRL`. -/
@[simp] abbrev idxCursorCtrl : UInt8 := 10

/-- `IDX_CURSOR_LOC_LOW`. -/
@[simp] abbrev idxCursorLocLow : UInt8 := 15

/-- `IDX_CURSOR_LOC_HIGH`. -/
@[simp] abbrev idxCursorLocHigh : UInt8 := 14

/-- `CURSOR_CTRL_EN`. -/
@[simp] abbrev cursorCtrlEn : UInt8 := 0x20

/-- `outb`. -/
def outb (data : UInt8) (port : ℕ) (a : Adapter) : Adapter :=
  if port = portIndex then { a with index := data }
  else if port = portData then { a with regs := Function.update a.regs a.index data }
  else a

/-- `inb`. -/
def inb (port : ℕ) (a : Adapter) : UInt8 × Adapter :=
  (if port = portData then a.regs a.index else 0xff, a)

/-- `textbuf[n]`. -/
def load (a : Adapter) (n : ℕ) : UInt16 := cell (a.mem (textbuf + 2 * n)) (a.mem (textbuf + 2 * n + 1))

/-- `textbuf[n] = w`. -/
def store (a : Adapter) (n : ℕ) (w : UInt16) : Adapter :=
  { a with
    mem := Function.update (Function.update a.mem (textbuf + 2 * n) (charOf w))
      (textbuf + 2 * n + 1) (colorOf w) }

/-- `for (int i = start; i < start + n; i++) textbuf[i] = f(textbuf[i]);`. -/
def each (f : UInt16 → UInt16) (start n : ℕ) (a : Adapter) : Adapter :=
  (List.range' start n).foldl (fun a i => a.store i (f (a.load i))) a

/-- The loop of `memcpy` on one memory. -/
def copyBytes (d s : ℕ) : (n : ℕ) → Memory → Memory
  | 0, mem => mem
  | n + 1, mem =>
    let mem := copyBytes d s n mem
    Function.update mem (d + n) (mem (s + n))

/-! ## The driver -/

/-- `crtc_read`. -/
def crtcRead (index : UInt8) (a : Adapter) : UInt8 × Adapter := (a.outb index portIndex).inb portData

/-- `crtc_write`. -/
def crtcWrite (data index : UInt8) (a : Adapter) : Adapter := (a.outb index portIndex).outb data portData

/-- `vga_get_cursor`. -/
def vgaGetCursor (a : Adapter) : UInt16 × Adapter :=
  let low := a.crtcRead idxCursorLocLow
  let high := low.2.crtcRead idxCursorLocHigh
  (low.1.toUInt16 ||| high.1.toUInt16 <<< 8, high.2)

/-- `vga_set_cursor`. -/
def vgaSetCursor (off : UInt16) (a : Adapter) : Except Fault Adapter :=
  if screenCells ≤ off.toNat then .error .panic
  else .ok ((a.crtcWrite off.toUInt8 idxCursorLocLow).crtcWrite (off >>> 8).toUInt8 idxCursorLocHigh)

/-- `vga_reset`. -/
def vgaReset (a : Adapter) : Except Fault Adapter :=
  (a.each (fun w => w &&& 0xff00) 0 screenCells).vgaSetCursor 0

/-- `vga_putchar`. -/
def vgaPutchar (off : UInt16) (c color : UInt8) (a : Adapter) : Except Fault Adapter :=
  if screenCells ≤ off.toNat then .error .panic
  else
    let color := if color = 0 then blackWhite else color
    .ok (a.store off.toNat (c.toUInt16 ||| color.toUInt16 <<< 8))

/-- `vga_scroll`. -/
def vgaScroll (off : UInt16) (a : Adapter) : UInt16 × Adapter :=
  if off.toNat < screenCells then (off, a)
  else
    let a := { a with mem := copyBytes textbuf (textbuf + 2 * 80) (24 * 80 * 2) a.mem }
    (24 * 80, a.each (fun w => w &&& 0xff00) (24 * 80) 80)

/-- `vga_set_color`. -/
def vgaSetColor (row : ℤ) (color : UInt8) (a : Adapter) : Except Fault Adapter :=
  if row < 0 ∨ 25 ≤ row then .error .panic
  else .ok (a.each (fun w => (w &&& (0x00ff : UInt16)) ||| (color.toUInt16 <<< 8)) (row.toNat * 80) 80)

/-- `vga_hide_cursor`. -/
def vgaHideCursor (a : Adapter) : Adapter :=
  let r := a.crtcRead idxCursorCtrl
  r.2.crtcWrite (r.1 ||| cursorCtrlEn) idxCursorCtrl

/-- `vga_show_cursor`. -/
def vgaShowCursor (a : Adapter) : Adapter :=
  let r := a.crtcRead idxCursorCtrl
  r.2.crtcWrite (r.1 &&& ~~~cursorCtrlEn) idxCursorCtrl

/-- `vga_set_cursor(vga_scroll(off))`. -/
def scrollTo (off : UInt16) (a : Adapter) : Except Fault Adapter :=
  let r := a.vgaScroll off
  r.2.vgaSetCursor r.1

/-- The static `putchar` of `printf.c` with its static `color`. -/
def putchar (color c : UInt8) (a : Adapter) : Except Fault Adapter := do
  let r := a.vgaGetCursor
  let off := r.1.toNat
  if c = 10 ∨ c = 13 then r.2.scrollTo (.ofNat (off + 80 - off % 80))
  else if c = 8 then
    if off ≠ 0 then
      let a ← r.2.vgaPutchar (.ofNat (off - 1)) 32 color
      a.scrollTo (.ofNat (off - 1))
    else r.2.scrollTo (.ofNat off)
  else if c = 9 then r.2.scrollTo (.ofNat (off + 4))
  else
    let a ← r.2.vgaPutchar (.ofNat off) c color
    a.scrollTo (.ofNat (off + 1))

variable {a a₀ : Adapter} {m n start p : ℕ} {w : UInt16} {f : UInt16 → UInt16}

/-! ## Cells -/

/-- A stored cell reads back, and the others are as before. -/
theorem load_store : (a.store n w).load m = if m = n then w else a.load m := by
  simp only [load, store]
  split
  · rename_i h
    subst h
    rw [Function.update_of_ne (by omega), Function.update_self, Function.update_self,
      cell_charOf_colorOf]
  · rename_i h
    rw [Function.update_of_ne (by omega), Function.update_of_ne (by omega),
      Function.update_of_ne (by omega), Function.update_of_ne (by omega)]

/-- A store changes the two bytes of its cell only. -/
theorem mem_store (h : p < textbuf + 2 * n ∨ textbuf + 2 * n + 2 ≤ p) :
    (a.store n w).mem p = a.mem p := by
  simp only [store]
  rw [Function.update_of_ne (by omega), Function.update_of_ne (by omega)]

/-- The loop changes each cell of its range once. -/
theorem load_each : (a.each f start n).load m = if start ≤ m ∧ m < start + n then f (a.load m) else
    a.load m := by
  induction n generalizing a start with
  | zero =>
    rw [if_neg (by omega)]
    rfl
  | succ n ih =>
    have hstep : a.each f start (n + 1) = (a.store start (f (a.load start))).each f (start + 1) n := rfl
    rw [hstep, ih, load_store]
    rcases lt_trichotomy m start with h | h | h
    · rw [if_neg (by omega), if_neg (by omega), if_neg (by omega)]
    · rw [if_neg (by omega), if_pos h, if_pos (by omega), h]
    · rw [if_neg (show m ≠ start by omega)]
      by_cases hlt : m < start + (n + 1)
      · rw [if_pos (by omega), if_pos (by omega)]
      · rw [if_neg (by omega), if_neg (by omega)]

/-- A loop over cells changes their bytes only. -/
theorem each_frame (f : UInt16 → UInt16) (start n : ℕ) (a : Adapter) :
    (∀ p, p < textbuf + 2 * start ∨ textbuf + 2 * (start + n) ≤ p → (a.each f start n).mem p = a.mem p) ∧
      (a.each f start n).regs = a.regs := by
  induction n generalizing a start with
  | zero => exact ⟨fun _ _ => rfl, rfl⟩
  | succ n ih =>
    have hstep : a.each f start (n + 1) = (a.store start (f (a.load start))).each f (start + 1) n := rfl
    rw [hstep]
    obtain ⟨hmem, hregs⟩ := ih (start + 1) (a.store start (f (a.load start)))
    refine ⟨fun p hp => ?_, hregs⟩
    rw [hmem p (by omega), mem_store (by omega)]

/-- Copied to lower addresses, the bytes are the ones from before, although the areas overlap. -/
theorem copyBytes_eq {d s : ℕ} (h : d ≤ s) (n : ℕ) (mem : Memory) :
    copyBytes d s n mem = memcpy mem d mem s n := by
  induction n with
  | zero =>
    funext p
    rw [copyBytes, memcpy, if_neg (by omega)]
  | succ n ih =>
    funext p
    rw [copyBytes, ih]
    have hsource : memcpy mem d mem s n (s + n) = mem (s + n) := if_neg (by omega)
    rw [hsource]
    rcases eq_or_ne p (d + n) with rfl | hne
    · rw [Function.update_self, memcpy, if_pos (by omega), Nat.add_sub_cancel_left]
    · rw [Function.update_of_ne hne, memcpy, memcpy]
      by_cases hin : d ≤ p ∧ p < d + n
      · rw [if_pos hin, if_pos (by omega)]
      · rw [if_neg hin, if_neg (by omega)]

/-- The cells that `memcpy` moves one row up. -/
theorem load_copyBytes : load
    { a with mem := copyBytes textbuf (textbuf + 2 * 80) (24 * 80 * 2) a.mem } m =
    if m < 24 * 80 then a.load (m + 80) else a.load m := by
  have hlow : textbuf ≤ textbuf + 2 * 80 := Nat.le_add_right _ _
  simp only [load, copyBytes_eq hlow, memcpy]
  by_cases h : m < 24 * 80
  · have hfirst (b : ℕ) : b + 2 * 80 + (b + 2 * m - b) = b + 2 * (m + 80) := by omega
    have hsecond (b : ℕ) : b + 2 * 80 + (b + 2 * m + 1 - b) = b + 2 * (m + 80) + 1 := by omega
    rw [if_pos h, if_pos (by omega), if_pos (by omega), hfirst, hsecond]
  · rw [if_neg h, if_neg (by omega), if_neg (by omega)]

/-! ## The registers -/

/-- A read of a register of the CRT controller leaves its index behind. -/
theorem crtcRead_eq (i : UInt8) : a.crtcRead i = (a.regs i, { a with index := i }) := rfl

/-- A write to a register of the CRT controller. -/
theorem crtcWrite_regs (data i r : UInt8) : (a.crtcWrite data i).regs r = if r = i then data else
    a.regs r :=
  Function.update_apply _ _ _ _

/-! ## The screen of an adapter -/

/-- From `a₀` the adapter has become one that shows the screen, with the cursor hidden or not. -/
structure Shows (a₀ : Adapter) (hidden : Bool) (a : Adapter) (v : Vga) : Prop where
  cells : ∀ i < screenCells, a.load i = v.textbuf i
  low : a.regs idxCursorLocLow = v.cursorLow
  high : a.regs idxCursorLocHigh = v.cursorHigh
  ctrl : a.regs idxCursorCtrl =
    if hidden then a₀.regs idxCursorCtrl ||| cursorCtrlEn else a₀.regs idxCursorCtrl &&& ~~~cursorCtrlEn
  memory : ∀ p, p < textbuf ∨ textbuf + 2 * screenCells ≤ p → a.mem p = a₀.mem p
  registers : ∀ r, r ≠ idxCursorCtrl → r ≠ idxCursorLocLow → r ≠ idxCursorLocHigh → a.regs r = a₀.regs r

namespace Shows

variable {hidden : Bool} {v : Vga}

/-- The index does not matter. -/
theorem choose (h : Shows a₀ hidden a v) (i : UInt8) : Shows a₀ hidden { a with index := i } v :=
  ⟨h.cells, h.low, h.high, h.ctrl, h.memory, h.registers⟩

/-- Other cells. -/
theorem cellsTo (h : Shows a₀ hidden a v) {a' : Adapter} {textbuf' : ℕ → UInt16}
    (hregs : a'.regs = a.regs) (hmem : ∀ p, p < textbuf ∨ textbuf + 2 * screenCells ≤ p →
    a'.mem p = a.mem p)
    (hcells : ∀ i < screenCells, a'.load i = textbuf' i) :
    Shows a₀ hidden a' { v with textbuf := textbuf' } where
  cells := hcells
  low := by rw [hregs, h.low]
  high := by rw [hregs, h.high]
  ctrl := by rw [hregs, h.ctrl]
  memory p hp := by rw [hmem p hp, h.memory p hp]
  registers r hctrl hlow hhigh := by rw [hregs, h.registers r hctrl hlow hhigh]

/-- `vga_get_cursor` on the adapter. -/
theorem vgaGetCursor (h : Shows a₀ hidden a v) :
    a.vgaGetCursor.1 = Hobby386.vgaGetCursor v ∧ Shows a₀ hidden a.vgaGetCursor.2 v := by
  simp only [Adapter.vgaGetCursor, crtcRead_eq, h.low, h.high]
  exact ⟨rfl, h.choose _⟩

/-- `vga_set_cursor` on the adapter. -/
theorem vgaSetCursor (h : Shows a₀ hidden a v) (off : UInt16) :
    Alike (Shows a₀ hidden) (a.vgaSetCursor off) (Hobby386.vgaSetCursor v off) := by
  refine Alike.branch (fun _ => .error _) fun _ => .ok ?_
  refine ⟨h.cells, ?_, ?_, ?_, h.memory, fun r hctrl hlow hhigh => ?_⟩
  · rw [crtcWrite_regs, if_neg (by decide), crtcWrite_regs, if_pos rfl]
  · rw [crtcWrite_regs, if_pos rfl]
  · rw [crtcWrite_regs, if_neg (by decide), crtcWrite_regs, if_neg (by decide), h.ctrl]
  · rw [crtcWrite_regs, if_neg hhigh, crtcWrite_regs, if_neg hlow, h.registers r hctrl hlow hhigh]

/-- A loop over cells of the screen. -/
theorem each (h : Shows a₀ hidden a v) {textbuf' : ℕ → UInt16} (hrange : start + n ≤ screenCells)
    (hcells : ∀ i < screenCells, (if start ≤ i ∧ i < start + n then f (v.textbuf i) else
      v.textbuf i) = textbuf' i) :
    Shows a₀ hidden (a.each f start n) { v with textbuf := textbuf' } := by
  obtain ⟨hmem, hregs⟩ := each_frame f start n a
  refine h.cellsTo hregs (fun p hp => hmem p (by omega)) fun i hi => ?_
  rw [load_each, h.cells i hi, hcells i hi]

/-- `vga_reset` on the adapter. -/
theorem vgaReset (h : Shows a₀ hidden a v) :
    Alike (Shows a₀ hidden) a.vgaReset (Hobby386.vgaReset v) := by
  have hcleared : Shows a₀ hidden (a.each (fun w => w &&& 0xff00) 0 screenCells)
      { v with
        textbuf := fun i => if i < screenCells then v.textbuf i &&& 0xff00 else v.textbuf i } := by
    refine h.each (by decide) fun i hi => ?_
    rw [if_pos (by omega), if_pos hi]
  exact hcleared.vgaSetCursor 0

/-- `vga_putchar` on the adapter. -/
theorem vgaPutchar (h : Shows a₀ hidden a v) (off : UInt16) (c color : UInt8) :
    Alike (Shows a₀ hidden) (a.vgaPutchar off c color) (Hobby386.vgaPutchar v off c color) := by
  refine Alike.branch (fun _ => .error _) fun hoff => .ok ?_
  refine h.cellsTo rfl (fun p hp => mem_store (by omega)) fun i hi => ?_
  rw [load_store, h.cells i hi, Function.update_apply]
  rfl

/-- `vga_scroll` on the adapter. -/
theorem vgaScroll (h : Shows a₀ hidden a v) (off : UInt16) :
    (a.vgaScroll off).1 = (Hobby386.vgaScroll v off).1 ∧
    Shows a₀ hidden (a.vgaScroll off).2 (Hobby386.vgaScroll v off).2 := by
  rw [Adapter.vgaScroll, Hobby386.vgaScroll]
  have hload (m : ℕ) := load_copyBytes (a := a) (m := m)
  have hmem (p : ℕ) (hp : p < textbuf ∨ textbuf + 2 * screenCells ≤ p) :
      copyBytes textbuf (textbuf + 2 * 80) (24 * 80 * 2) a.mem p = a.mem p := by
    rw [copyBytes_eq (Nat.le_add_right _ _)]
    exact if_neg (by simp only [screenCells] at hp; omega)
  generalize copyBytes textbuf (textbuf + 2 * 80) (24 * 80 * 2) a.mem = mem at hload hmem
  split
  · exact ⟨rfl, h⟩
  · refine ⟨rfl, ?_⟩
    have hcopy : Shows a₀ hidden { a with mem := mem }
        { v with textbuf := fun i => if i < 24 * 80 then v.textbuf (i + 80) else v.textbuf i } := by
      refine h.cellsTo rfl hmem fun i hi => ?_
      rw [hload, h.cells i hi]
      split
      · rw [h.cells _ (by simp only [screenCells]; omega)]
      · rfl
    have hrange : 24 * 80 + 80 ≤ screenCells := le_rfl
    have hclear : Shows a₀ hidden (Adapter.each (fun w => w &&& 0xff00) (24 * 80) 80
        { a with mem := mem })
        { v with textbuf := scrollRows v.textbuf } := hcopy.each hrange fun i hi => ?_
    · exact hclear
    dsimp only
    rw [scrollRows]
    by_cases hlow : i < 24 * 80
    · rw [if_neg (by omega), if_pos hlow, if_pos hlow]
    · rw [if_pos (by simp only [screenCells] at hi; omega), if_neg hlow, if_neg hlow, if_pos hi]

/-- `vga_set_color` on the adapter. -/
theorem vgaSetColor (h : Shows a₀ hidden a v) (row : ℤ) (color : UInt8) :
    Alike (Shows a₀ hidden) (a.vgaSetColor row color) (Hobby386.vgaSetColor v row color) := by
  refine Alike.branch (fun _ => .error _) fun hrow => .ok ?_
  exact h.each (by simp only [screenCells]; omega) fun i hi => rfl

/-- The scrolling of `putchar` on the adapter. -/
theorem scrollTo (h : Shows a₀ hidden a v) (off : UInt16) :
    Alike (Shows a₀ hidden) (a.scrollTo off) (Hobby386.scrollTo v off) := by
  obtain ⟨hoff, hshows⟩ := h.vgaScroll off
  rw [Adapter.scrollTo, Hobby386.scrollTo, hoff]
  exact hshows.vgaSetCursor _

/-- `putchar` on the adapter. -/
theorem putchar (h : Shows a₀ hidden a v) (color c : UInt8) :
    Alike (Shows a₀ hidden) (a.putchar color c) (putcharIn color v c) := by
  obtain ⟨hcursor, hshows⟩ := h.vgaGetCursor
  rw [Adapter.putchar, putcharIn, hcursor]
  refine Alike.branch (fun _ => hshows.scrollTo _) fun _ => ?_
  refine Alike.branch (fun _ => ?_) fun _ => ?_
  · refine Alike.branch (fun _ => ?_) fun _ => hshows.scrollTo _
    exact (hshows.vgaPutchar _ _ _).bind fun _ _ h => h.scrollTo _
  · refine Alike.branch (fun _ => hshows.scrollTo _) fun _ => ?_
    exact (hshows.vgaPutchar _ _ _).bind fun _ _ h => h.scrollTo _

end Shows

/-! ## Calls of the driver -/

/-- A screen, and whether the cursor is hidden. -/
structure Display where
  vga : Vga
  hidden : Bool

/-- The display of an adapter. -/
def display (a : Adapter) : Display where
  vga := ⟨a.load, a.regs idxCursorLocLow, a.regs idxCursorLocHigh⟩
  hidden := a.regs idxCursorCtrl &&& cursorCtrlEn ≠ 0

/-- Calls of the functions of the driver, and of `putchar` with the color that `printf` has at the
time. -/
inductive VgaCall
  | getCursor
  | setCursor (off : UInt16)
  | reset
  | putcharAt (off : UInt16) (c color : UInt8)
  | scroll (off : UInt16)
  | setColor (row : ℤ) (color : UInt8)
  | hideCursor
  | showCursor
  | putchar (color c : UInt8)

/-- What a call does to the adapter. Where it has no answer there is a zero. -/
def VgaCall.exec (call : VgaCall) (a : Adapter) : Except Fault (UInt16 × Adapter) :=
  match call with
  | .getCursor => .ok a.vgaGetCursor
  | .setCursor off => (a.vgaSetCursor off).map fun a => (0, a)
  | .reset => a.vgaReset.map fun a => (0, a)
  | .putcharAt off c color => (a.vgaPutchar off c color).map fun a => (0, a)
  | .scroll off => .ok (a.vgaScroll off)
  | .setColor row color => (a.vgaSetColor row color).map fun a => (0, a)
  | .hideCursor => .ok (0, a.vgaHideCursor)
  | .showCursor => .ok (0, a.vgaShowCursor)
  | .putchar color c => (a.putchar color c).map fun a => (0, a)

/-- What a call means for the cells and the cursor. -/
def VgaCall.meaning (call : VgaCall) (d : Display) : Except Fault (UInt16 × Display) :=
  match call with
  | .getCursor => .ok (Hobby386.vgaGetCursor d.vga, d)
  | .setCursor off => (Hobby386.vgaSetCursor d.vga off).map fun v => (0, { d with vga := v })
  | .reset => (Hobby386.vgaReset d.vga).map fun v => (0, { d with vga := v })
  | .putcharAt off c color => (Hobby386.vgaPutchar d.vga off c color).map fun v =>
    (0, { d with vga := v })
  | .scroll off =>
    let r := Hobby386.vgaScroll d.vga off
    .ok (r.1, { d with vga := r.2 })
  | .setColor row color => (Hobby386.vgaSetColor d.vga row color).map fun v => (0, { d with vga := v })
  | .hideCursor => .ok (0, { d with hidden := true })
  | .showCursor => .ok (0, { d with hidden := false })
  | .putchar color c => (putcharIn color d.vga c).map fun v => (0, { d with vga := v })

/-- The display that an adapter shows after calls. -/
def ShowsDisplay (a₀ a : Adapter) (d : Display) : Prop := Shows a₀ d.hidden a d.vga

/-- A property of bytes can be checked for all of them. -/
theorem forall_byte {P : UInt8 → Prop} (h : ∀ n < 256, P (.ofNat n)) (b : UInt8) : P b := by
  rw [← UInt8.ofNat_toNat (x := b)]
  exact h b.toNat b.toNat_lt

/-- The bit of the cursor can be set and cleared, and one of both is what it is. -/
theorem ctrl_bit (b : UInt8) :
    (b ||| cursorCtrlEn) ||| cursorCtrlEn = b ||| cursorCtrlEn ∧
    (b &&& ~~~cursorCtrlEn) ||| cursorCtrlEn = b ||| cursorCtrlEn ∧
    (b ||| cursorCtrlEn) &&& ~~~cursorCtrlEn = b &&& ~~~cursorCtrlEn ∧
    (b &&& ~~~cursorCtrlEn) &&& ~~~cursorCtrlEn = b &&& ~~~cursorCtrlEn ∧
    b = if decide (b &&& cursorCtrlEn ≠ 0) then b ||| cursorCtrlEn else b &&& ~~~cursorCtrlEn := by
  revert b
  exact forall_byte (by decide +kernel)

/-- An adapter shows the screen that it displays. -/
theorem shows_display (a : Adapter) : ShowsDisplay a a a.display :=
  ⟨fun _ _ => rfl, rfl, rfl, (ctrl_bit _).2.2.2.2, fun _ _ => rfl, fun _ _ _ _ => rfl⟩

/-- Hiding and showing the cursor only change its bit. -/
theorem Shows.toggle {hidden : Bool} {v : Vga} (h : Shows a₀ hidden a v) :
    Shows a₀ true a.vgaHideCursor v ∧ Shows a₀ false a.vgaShowCursor v := by
  obtain ⟨hset, hclearSet, hsetClear, hclear, -⟩ := ctrl_bit (a₀.regs idxCursorCtrl)
  have hwrite {hidden' : Bool} (data : UInt8) (hdata : data = if hidden' then
    a₀.regs idxCursorCtrl ||| cursorCtrlEn
      else
        a₀.regs idxCursorCtrl &&& ~~~cursorCtrlEn) : Shows a₀ hidden'
          (a.crtcWrite data idxCursorCtrl) v := by
    refine ⟨h.cells, ?_, ?_, ?_, h.memory, fun r hctrl hlow hhigh => ?_⟩
    · rw [crtcWrite_regs, if_neg (by decide), h.low]
    · rw [crtcWrite_regs, if_neg (by decide), h.high]
    · rw [crtcWrite_regs, if_pos rfl, hdata]
    · rw [crtcWrite_regs, if_neg hctrl, h.registers r hctrl hlow hhigh]
  have hctrl := h.ctrl
  constructor
  · refine hwrite _ ?_
    rw [crtcRead_eq, hctrl]
    cases hidden
    · exact hclearSet
    · exact hset
  · refine hwrite _ ?_
    rw [crtcRead_eq, hctrl]
    cases hidden
    · exact hclear
    · exact hsetClear

/-- Whatever is called, the answers and panics are those of the driver on cells and a cursor, and
the adapter shows the display: the other bytes of the memory, the other registers and the other bits
of the cursor's control register are the ones from before. -/
theorem vga_calls_refine (a : Adapter) (calls : List VgaCall) :
    Alike (fun r r' => r.1 = r'.1 ∧ ShowsDisplay a r.2 r'.2) (execAll VgaCall.exec calls a)
      (execAll VgaCall.meaning calls a.display) := by
  refine alike_execAll (fun call a' d h => ?_) (shows_display a) calls
  have h : Shows a d.hidden a' d.vga := h
  cases call with
  | getCursor => exact .ok h.vgaGetCursor
  | setCursor off => exact (h.vgaSetCursor off).map fun _ _ h => ⟨rfl, h⟩
  | reset =>
    rw [VgaCall.exec, VgaCall.meaning]
    exact h.vgaReset.map fun _ _ h => ⟨rfl, h⟩
  | putcharAt off c color => exact (h.vgaPutchar off c color).map fun _ _ h => ⟨rfl, h⟩
  | scroll off => exact .ok (h.vgaScroll off)
  | setColor row color => exact (h.vgaSetColor row color).map fun _ _ h => ⟨rfl, h⟩
  | hideCursor => exact .ok ⟨rfl, h.toggle.1⟩
  | showCursor => exact .ok ⟨rfl, h.toggle.2⟩
  | putchar color c => exact (h.putchar color c).map fun _ _ h => ⟨rfl, h⟩

end Adapter

end Hobby386
