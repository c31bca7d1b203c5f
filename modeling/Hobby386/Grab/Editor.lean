import Hobby386.Lib.Runs
import Hobby386.Grab.Vga
import Hobby386.Grab.Kbd

/-!
# The line editor

The editing loop of `shell`. It keeps a line in a buffer and on the screen. The cells are counted
from the position the line starts at, which the loop does not adjust when the screen scrolls: the
line is edited properly as long as it ends on the screen.
-/

namespace Hobby386

open Runs

/-- `CMDLEN`. -/
@[simp] abbrev cmdLen : ℕ := 80 * 2

/-- `isprint`. -/
def isprint (c : UInt8) : Bool := 32 ≤ c && c ≤ 126

/-- The variables of the editing loop, with the screen. -/
structure Editor where
  vga : Vga
  start : ℕ
  off : ℕ
  buf : Memory
  len : ℕ

/-- `buf[i] = c`. -/
def setBuf (buf : Memory) (i : ℕ) (c : UInt8) : Except Fault Memory :=
  if i < cmdLen then .ok (Function.update buf i c) else .error .outOfBounds

/-- The loop that makes a gap at `off`, with `i` counting down from the length. -/
def openGap (start off : ℕ) : (i : ℕ) → Memory → Vga → Except Fault (Memory × Vga)
  | 0, buf, v => .ok (buf, v)
  | i + 1, buf, v =>
    if off < i + 1 then do
      let v ← vgaPutchar v (.ofNat (start + (i + 1))) (buf i) blackWhite
      let buf ← setBuf buf (i + 1) (buf i)
      openGap start off i buf v
    else .ok (buf, v)

/-- The loop that closes the gap at `i`, with `n` characters behind it. -/
def closeGap (start : ℕ) : (n i : ℕ) → Memory → Vga → Except Fault (Memory × Vga)
  | 0, _, buf, v => .ok (buf, v)
  | n + 1, i, buf, v =>
    if i + 1 < cmdLen then do
      let v ← vgaPutchar v (.ofNat (start + i)) (buf (i + 1)) blackWhite
      let buf ← setBuf buf i (buf (i + 1))
      closeGap start n (i + 1) buf v
    else .error .outOfBounds

/-- The branch of the loop body for a printable character. -/
def insertKey (ed : Editor) (data : UInt8) : Except Fault Editor := do
  let r ← openGap ed.start ed.off ed.len ed.buf ed.vga
  let buf ← setBuf r.1 ed.off data
  let v ← vgaPutchar r.2 (.ofNat (ed.start + ed.off)) data blackWhite
  let v ← scrollTo v (vgaGetCursor v + 1)
  .ok { ed with vga := v, buf := buf, off := ed.off + 1, len := ed.len + 1 }

/-- The branch for the left arrow. -/
def leftKey (ed : Editor) : Except Fault Editor := do
  let v ← scrollTo ed.vga (vgaGetCursor ed.vga - 1)
  .ok { ed with vga := v, off := ed.off - 1 }

/-- The branch for the right arrow. -/
def rightKey (ed : Editor) : Except Fault Editor := do
  let v ← scrollTo ed.vga (vgaGetCursor ed.vga + 1)
  .ok { ed with vga := v, off := ed.off + 1 }

/-- The branch for the backspace. -/
def backspaceKey (ed : Editor) : Except Fault Editor := do
  let r ← closeGap ed.start (ed.len - (ed.off - 1)) (ed.off - 1) ed.buf ed.vga
  let v ← vgaPutchar r.2 (.ofNat (ed.start + ed.len - 1)) 32 blackWhite
  let v ← scrollTo v (vgaGetCursor v - 1)
  .ok { ed with vga := v, buf := r.1, off := ed.off - 1, len := ed.len - 1 }

/-- The loop body of `shell` up to the call of `process_command`; the flag tells whether the line is
complete. -/
def shellKey (e : KeyEvent) (ed : Editor) : Except Fault (Bool × Editor) :=
  let data := applyShift e.data e
  if data = 10 then do
    let buf ← setBuf ed.buf ed.len 0
    .ok (true, { ed with buf := buf })
  else if isprint data ∧ ed.len < cmdLen - 1 then do
    let ed ← insertKey ed data
    .ok (false, ed)
  else if data = keyLArrow ∧ 0 < ed.off then do
    let ed ← leftKey ed
    .ok (false, ed)
  else if data = keyRArrow ∧ ed.off < ed.len then do
    let ed ← rightKey ed
    .ok (false, ed)
  else if data = 8 ∧ 0 < ed.off then do
    let ed ← backspaceKey ed
    .ok (false, ed)
  else .ok (false, ed)

/-- The prompt, and the variables for a new line. -/
def prompt (buf : Memory) (v : Vga) : Except Fault Editor := do
  let v ← putchars v [103, 114, 97, 98, 62, 32]
  .ok ⟨v, (vgaGetCursor v).toNat, 0, buf, 0⟩

/-- The cell of a position in the line shows the character of the buffer. -/
def Shown (v : Vga) (start : ℕ) (buf : Memory) (i : ℕ) : Prop :=
  v.textbuf (start + i) = cell (buf i) blackWhite

/-- The screen mirrors the line: its cells show the characters of the buffer in order, and the
cursor stands on the cell of the position in the buffer. The cells are counted from the saved start
of the line, which the shell does not adjust when the screen scrolls. After a scroll the line may
still be shown, one row higher, without being mirrored in this sense: what keeps it mirrored at the
next key is stricter than what keeps it shown. -/
structure Editor.Mirrors (ed : Editor) : Prop where
  off_le : ed.off ≤ ed.len
  len_lt : ed.len < cmdLen
  onScreen : ed.start + ed.len ≤ screenCells
  shown : ∀ i < ed.len, Shown ed.vga ed.start ed.buf i
  cursor : (vgaGetCursor ed.vga).toNat = ed.start + ed.off
  cursor_lt : ed.start + ed.off < screenCells

/-- The key is not Enter. -/
def Editing (e : KeyEvent) : Prop := applyShift e.data e ≠ 10

/-- What the key makes of the line still ends on the screen: a character put into the line has a
cell, and so has the cursor behind it. -/
def Editor.Fits (ed : Editor) (e : KeyEvent) : Prop :=
  let data := applyShift e.data e
  (isprint data ∧ ed.len < cmdLen - 1 → ed.start + ed.len < screenCells ∧
    ed.start + ed.off + 1 < screenCells) ∧
  (data = keyRArrow ∧ ed.off < ed.len → ed.start + ed.off + 1 < screenCells)

/-! ## The loops -/

section Loops

variable {v : Vga} {buf : Memory} {start off i j n : ℕ}

/-- A store inside the command buffer. -/
theorem setBuf_of_lt (h : i < cmdLen) (c : UInt8) :
    setBuf buf i c = .ok (Function.update buf i c) := if_pos h

/-- A character written to the buffer and to its cell is shown, and so is what has been before. -/
theorem Shown.write {c : UInt8} (h : j ≠ i → Shown v start buf j) :
    Shown (v.put (start + i) c blackWhite) start (Function.update buf i c) j := by
  rw [Shown, Vga.put_textbuf]
  by_cases hj : j = i
  · rw [hj, Function.update_self, Function.update_self]
  · rw [Function.update_of_ne (by omega), Function.update_of_ne hj]
    exact h hj

/-- The first loop writes buffer and cells from `i` down to the one behind `off`. -/
theorem openGap_shown (buf : Memory) (v : Vga) (start off : ℕ) (hi : i < cmdLen)
    (hcell : off < i → start + i < screenCells) :
    ∃ buf' v', openGap start off i buf v = .ok (buf', v') ∧ vgaGetCursor v' = vgaGetCursor v ∧
      ∀ j, (Shown v start buf j ∨ off < j ∧ j ≤ i) → Shown v' start buf' j := by
  induction i generalizing buf v with
  | zero => exact ⟨buf, v, rfl, rfl, fun j h => h.resolve_right (by omega)⟩
  | succ i ih =>
    rw [openGap]
    by_cases hoff : off < i + 1
    · rw [if_pos hoff, vgaPutchar_ofNat (hcell hoff) _ (by decide), ok_bind, setBuf_of_lt hi, ok_bind]
      obtain ⟨buf', v', hloop, hcursor, hshown⟩ := ih (Function.update buf (i + 1) (buf i))
        (v.put (start + (i + 1)) (buf i) blackWhite) (by omega) (fun _ => by have := hcell hoff; omega)
      refine ⟨buf', v', hloop, hcursor, fun j hj => hshown j ?_⟩
      by_cases hji : off < j ∧ j ≤ i
      · exact .inr hji
      · refine .inl (Shown.write fun hne => hj.resolve_right ?_)
        omega
    · rw [if_neg hoff]
      exact ⟨buf, v, rfl, rfl, fun j h => h.resolve_right (by omega)⟩

/-- The first loop panics when there is no cell behind the line. -/
theorem openGap_panic (hgap : off < i) (hend : start + i = screenCells) :
    openGap start off i buf v = .error .panic := by
  cases i with
  | zero => exact absurd hgap (Nat.not_lt_zero off)
  | succ i => rw [openGap, if_pos hgap, vgaPutchar_panic hend, error_bind]

/-- The second loop writes buffer and cells from `i` on. -/
theorem closeGap_shown (buf : Memory) (v : Vga) (start : ℕ) (hn : i + n < cmdLen)
    (hcell : start + i + n ≤ screenCells) :
    ∃ buf' v', closeGap start n i buf v = .ok (buf', v') ∧ vgaGetCursor v' = vgaGetCursor v ∧
      ∀ j, Shown v start buf j → Shown v' start buf' j := by
  induction n generalizing i buf v with
  | zero => exact ⟨buf, v, rfl, rfl, fun j h => h⟩
  | succ n ih =>
    rw [closeGap, if_pos (by omega), vgaPutchar_ofNat (by omega) _ (by decide), ok_bind,
      setBuf_of_lt (by omega), ok_bind]
    obtain ⟨buf', v', hloop, hcursor, hshown⟩ := ih (i := i + 1)
      (Function.update buf i (buf (i + 1))) (v.put (start + i) (buf (i + 1)) blackWhite)
      (by omega) (by omega)
    exact ⟨buf', v', hloop, hcursor, fun j hj => hshown j (Shown.write fun _ => hj)⟩

/-- The cursor goes one cell on. -/
theorem scrollTo_next (h : (vgaGetCursor v).toNat + 1 < screenCells) :
    ∃ v', scrollTo v (vgaGetCursor v + 1) = .ok v' ∧ v'.textbuf = v.textbuf ∧
      (vgaGetCursor v').toNat = (vgaGetCursor v).toNat + 1 := by
  have hnext : (vgaGetCursor v + 1).toNat = (vgaGetCursor v).toNat + 1 := by
    rw [UInt16.toNat_add]
    exact Nat.mod_eq_of_lt (Nat.lt_trans h (by decide))
  refine ⟨_, scrollTo_of_lt (hnext ▸ h), rfl, ?_⟩
  rw [vgaGetCursor_moveTo, hnext]

/-- The cursor goes one cell back. -/
theorem scrollTo_prev (hpos : 0 < (vgaGetCursor v).toNat) (h : (vgaGetCursor v).toNat < screenCells) :
    ∃ v', scrollTo v (vgaGetCursor v - 1) = .ok v' ∧ v'.textbuf = v.textbuf ∧
      (vgaGetCursor v').toNat = (vgaGetCursor v).toNat - 1 := by
  have hprev : (vgaGetCursor v - 1).toNat = (vgaGetCursor v).toNat - 1 :=
    UInt16.toNat_sub_of_le _ _ hpos
  refine ⟨_, scrollTo_of_lt (by omega), rfl, ?_⟩
  rw [vgaGetCursor_moveTo, hprev]

/-- From the last cell the screen scrolls. -/
theorem scrollTo_last (h : (vgaGetCursor v).toNat + 1 = screenCells) :
    ∃ v', scrollTo v (vgaGetCursor v + 1) = .ok v' ∧ (vgaGetCursor v').toNat = 24 * 80 := by
  apply scrollTo_of_ge
  rw [UInt16.toNat_add, ← h]
  exact (Nat.mod_eq_of_lt (h ▸ by decide)).ge

end Loops

/-! ## The keys -/

variable {ed ed' : Editor} {e : KeyEvent} {data : UInt8}

section Keys

variable (h : ed.Mirrors)

include h

/-- A character with a cell behind the line is put into the line and shown, before the cursor moves. -/
theorem insertKey_shown (hlen : ed.len < cmdLen - 1)
    (hcell : ed.off < ed.len → ed.start + ed.len < screenCells) (data : UInt8) :
    ∃ buf v, vgaGetCursor v = vgaGetCursor ed.vga ∧ (∀ j < ed.len + 1, Shown v ed.start buf j) ∧
      insertKey ed data = (do
        let v ← scrollTo v (vgaGetCursor v + 1)
        .ok { ed with vga := v, buf := buf, off := ed.off + 1, len := ed.len + 1 }) := by
  have hoff := h.off_le
  obtain ⟨buf, v, hloop, hcursor, hshown⟩ := openGap_shown ed.buf ed.vga ed.start ed.off
    (show ed.len < cmdLen by omega) hcell
  refine ⟨Function.update buf ed.off data, v.put (ed.start + ed.off) data blackWhite, ?_,
    fun j hj => ?_, ?_⟩
  · rw [vgaGetCursor_put, hcursor]
  · refine Shown.write fun hne => hshown j ?_
    by_cases hjlen : j < ed.len
    · exact .inl (h.shown j hjlen)
    · exact .inr (by omega)
  · rw [insertKey, hloop, ok_bind, setBuf_of_lt (by omega), ok_bind,
      vgaPutchar_ofNat h.cursor_lt _ (by decide), ok_bind]

/-- A character is put into the line if and only if the line and the cursor stay on the screen. In
front of a line that ends with the screen the first loop panics, and behind it the screen scrolls.
-/
theorem insertKey_iff (hlen : ed.len < cmdLen - 1) (data : UInt8) :
    (∃ ed', insertKey ed data = .ok ed' ∧ ed'.Mirrors) ↔
      ed.start + ed.len < screenCells ∧ ed.start + ed.off + 1 < screenCells := by
  have hoff := h.off_le
  have hlt := h.cursor_lt
  have honScreen := h.onScreen
  by_cases hfull : ed.off < ed.len ∧ ed.start + ed.len = screenCells
  · rw [insertKey, openGap_panic hfull.1 hfull.2, error_bind]
    constructor
    · rintro ⟨ed', hcall, -⟩
      cases hcall
    · intro hfits
      omega
  obtain ⟨buf, v, hcursor, hshown, hinsert⟩ := insertKey_shown h hlen (fun hgap => by omega) data
  rw [hinsert]
  by_cases hroom : ed.start + ed.off + 1 < screenCells
  · obtain ⟨v', hscroll, htext, hnext⟩ := scrollTo_next (v := v) (by rw [hcursor, h.cursor]; exact hroom)
    rw [hscroll, ok_bind]
    refine ⟨fun _ => by omega, fun _ => ⟨_, rfl, ?_⟩⟩
    refine ⟨Nat.succ_le_succ hoff, by dsimp only; omega, by dsimp only; omega, fun j hj => ?_, ?_, hroom⟩
    · rw [Shown, htext]
      exact hshown j hj
    · rw [hnext, hcursor, h.cursor]
      rfl
  · obtain ⟨v', hscroll, hlast⟩ := scrollTo_last (v := v) (by rw [hcursor, h.cursor]; omega)
    rw [hscroll, ok_bind]
    constructor
    · rintro ⟨ed', hcall, hmirrors⟩
      cases hcall
      have hcursor' := hmirrors.cursor
      dsimp only at hcursor'
      have hrows : 24 * 80 < screenCells := by decide
      omega
    · intro hfits
      exact absurd hfits.2 hroom

/-- The left arrow. -/
theorem leftKey_mirrors (hpos : 0 < ed.off) : ∃ ed', leftKey ed = .ok ed' ∧ ed'.Mirrors := by
  have hoff := h.off_le
  have hlt := h.cursor_lt
  have hcursor := h.cursor
  obtain ⟨v, hscroll, htext, hprev⟩ := scrollTo_prev (v := ed.vga) (by omega) (by omega)
  refine ⟨_, by rw [leftKey, hscroll, ok_bind], ?_⟩
  refine ⟨by dsimp only; omega, h.len_lt, h.onScreen, fun j hj => ?_, by dsimp only; omega,
    by dsimp only; omega⟩
  rw [Shown, htext]
  exact h.shown j hj

/-- The right arrow moves in the line if and only if the cursor stays on the screen. -/
theorem rightKey_iff (hless : ed.off < ed.len) :
    (∃ ed', rightKey ed = .ok ed' ∧ ed'.Mirrors) ↔ ed.start + ed.off + 1 < screenCells := by
  have hlt := h.cursor_lt
  rw [rightKey]
  by_cases hroom : ed.start + ed.off + 1 < screenCells
  · obtain ⟨v, hscroll, htext, hnext⟩ := scrollTo_next (v := ed.vga) (by rw [h.cursor]; exact hroom)
    rw [hscroll, ok_bind]
    refine ⟨fun _ => hroom, fun _ => ⟨_, rfl, ?_⟩⟩
    refine ⟨hless, h.len_lt, h.onScreen, fun j hj => ?_, ?_, hroom⟩
    · rw [Shown, htext]
      exact h.shown j hj
    · rw [hnext, h.cursor]
      rfl
  · obtain ⟨v, hscroll, hlast⟩ := scrollTo_last (v := ed.vga) (by rw [h.cursor]; omega)
    rw [hscroll, ok_bind]
    constructor
    · rintro ⟨ed', hcall, hmirrors⟩
      cases hcall
      have hcursor := hmirrors.cursor
      dsimp only at hcursor
      have hrows : 24 * 80 < screenCells := by decide
      omega
    · exact fun hfits => absurd hfits hroom

/-- The backspace. -/
theorem backspaceKey_mirrors (hpos : 0 < ed.off) : ∃ ed', backspaceKey ed = .ok ed' ∧ ed'.Mirrors := by
  have hoff := h.off_le
  have hlen := h.len_lt
  have hlt := h.cursor_lt
  have honScreen := h.onScreen
  have hold := h.cursor
  obtain ⟨buf, v, hloop, hcursor, hshown⟩ := closeGap_shown ed.buf ed.vga ed.start
    (i := ed.off - 1) (n := ed.len - (ed.off - 1)) (by omega) (by omega)
  have hput : vgaGetCursor (v.put (ed.start + ed.len - 1) 32 blackWhite) = vgaGetCursor ed.vga := by
    rw [vgaGetCursor_put, hcursor]
  obtain ⟨v', hscroll, htext, hprev⟩ := scrollTo_prev (v := v.put (ed.start + ed.len - 1) 32 blackWhite)
    (by rw [hput]; omega) (by rw [hput]; omega)
  rw [hput] at hprev
  refine ⟨_, by
    rw [backspaceKey, hloop, ok_bind, vgaPutchar_ofNat (by omega) _ (by decide), ok_bind, hscroll,
      ok_bind], ?_⟩
  refine ⟨by dsimp only; omega, by dsimp only; omega, by dsimp only; omega, fun j hj => ?_,
    by dsimp only; omega, by dsimp only; omega⟩
  -- The blank goes to the cell behind the line, which is one shorter now.
  dsimp only at hj ⊢
  rw [Shown, htext, Vga.put_textbuf, Function.update_of_ne (by omega)]
  exact hshown j (h.shown j (by omega))

/-- A key keeps the screen a mirror of the line if and only if the line still fits. -/
theorem Editor.Mirrors.key_iff (hkey : Editing e) :
    (∃ ed', shellKey e ed = .ok (false, ed') ∧ ed'.Mirrors) ↔ ed.Fits e := by
  rw [shellKey, Editor.Fits]
  rw [if_neg hkey]
  generalize applyShift e.data e = data at hkey ⊢
  have hwrap : ∀ call : Except Fault Editor,
      (∃ ed', (call >>= fun ed => Except.ok (false, ed)) = Except.ok (false, ed') ∧ ed'.Mirrors) ↔
        ∃ ed', call = .ok ed' ∧ ed'.Mirrors := by
    intro call
    cases call with
    | error f => simp
    | ok ed => simp
  by_cases hinsert : isprint data ∧ ed.len < cmdLen - 1
  · have harrow : data ≠ keyRArrow := by
      rintro rfl
      exact absurd hinsert.1 (by decide)
    rw [if_pos hinsert, hwrap, insertKey_iff h hinsert.2]
    exact ⟨fun hfits => ⟨fun _ => hfits, fun hr => absurd hr.1 harrow⟩, fun hfits => hfits.1 hinsert⟩
  rw [if_neg hinsert]
  by_cases hleft : data = keyLArrow ∧ 0 < ed.off
  · rw [if_pos hleft, hwrap]
    refine ⟨fun _ => ⟨fun hp => absurd hp hinsert, fun hr => ?_⟩, fun _ => leftKey_mirrors h hleft.2⟩
    exact absurd (hleft.1.symm.trans hr.1) (by decide)
  rw [if_neg hleft]
  by_cases hright : data = keyRArrow ∧ ed.off < ed.len
  · rw [if_pos hright, hwrap, rightKey_iff h hright.2]
    exact ⟨fun hfits => ⟨fun hp => absurd hp hinsert, fun _ => hfits⟩, fun hfits => hfits.2 hright⟩
  rw [if_neg hright]
  have hfits : (isprint data ∧ ed.len < cmdLen - 1 →
      ed.start + ed.len < screenCells ∧ ed.start + ed.off + 1 < screenCells) ∧
      (data = keyRArrow ∧ ed.off < ed.len → ed.start + ed.off + 1 < screenCells) :=
    ⟨fun hp => absurd hp hinsert, fun hr => absurd hr hright⟩
  by_cases hback : data = 8 ∧ 0 < ed.off
  · rw [if_pos hback, hwrap]
    exact ⟨fun _ => hfits, fun _ => backspaceKey_mirrors h hback.2⟩
  · rw [if_neg hback]
    exact ⟨fun _ => hfits, fun _ => ⟨ed, rfl, h⟩⟩

end Keys

/-- The prompt starts an empty line wherever the cursor is. -/
theorem prompt_mirrors {v : Vga} (hcursor : (vgaGetCursor v).toNat < screenCells) (buf : Memory) :
    ∃ ed, prompt buf v = .ok ed ∧ ed.Mirrors := by
  obtain ⟨v', hprint, hlt⟩ := putchars_returns hcursor [103, 114, 97, 98, 62, 32]
  refine ⟨⟨v', (vgaGetCursor v').toNat, 0, buf, 0⟩, by rw [prompt, hprint, ok_bind], le_rfl, ?_,
    hlt.le, ?_, rfl, hlt⟩
  · show 0 < cmdLen
    decide
  · exact fun i hi => absurd hi (Nat.not_lt_zero i)

/-- Keys of a line that fits keep the screen a mirror of the buffer, from any position of the prompt
on, and in every state reached a next key does so if and only if the line still fits. -/
theorem line_mirrored (v : Vga) (buf : Memory) (hcursor : (vgaGetCursor v).toNat < screenCells) :
    ∃ ed, prompt buf v = .ok ed ∧ ∀ t ed', Run shellKey (fun _ ed e => Editing e ∧ ed.Fits e) ed t ed' →
      ed'.Mirrors ∧ ∀ e, Editing e →
        ((∃ ed'', shellKey e ed' = .ok (false, ed'') ∧ ed''.Mirrors) ↔ ed'.Fits e) := by
  obtain ⟨ed, hprompt, hmirrors⟩ := prompt_mirrors hcursor buf
  refine ⟨ed, hprompt, fun t ed' hrun => ?_⟩
  have hreached : ed'.Mirrors := by
    refine hrun.preserves (I := Editor.Mirrors) ?_ hmirrors
    rintro t ed₁ e r ed₂ hbefore ⟨hkey, hfits⟩ hcall
    obtain ⟨ed₃, hcall', hafter⟩ := (hbefore.key_iff hkey).mpr hfits
    rw [hcall] at hcall'
    cases hcall'
    exact hafter
  exact ⟨hreached, fun e hkey => hreached.key_iff hkey⟩

/-- The key of the letter a. -/
def keyA : KeyEvent := dataEvent Keyboard.boot 97 false

/-- An empty screen with the cursor at the start of the last row. -/
def lastRow : Vga := ⟨fun _ => 0, 0x80, 7⟩

/-- A line in the last row panics on its 75th character, one key after the screen has scrolled. -/
theorem not_line_mirrored : (vgaGetCursor lastRow).toNat = 24 * 80 ∧ Editing keyA ∧
    ∃ ed t ed', prompt (fun _ => 0) lastRow = .ok ed ∧ Run shellKey (fun _ _ => Editing) ed t ed' ∧
      t.length = 74 ∧ shellKey keyA ed' = .error .panic := by
  have hkeys : (prompt (fun _ => 0) lastRow >>= fun ed =>
      execAll shellKey (List.replicate 74 keyA) ed >>= fun r => .ok r.1.length) = .ok 74 := rfl
  have hpanic : (prompt (fun _ => 0) lastRow >>= fun ed =>
      execAll shellKey (List.replicate 74 keyA) ed >>= fun r => shellKey keyA r.2) = .error .panic := rfl
  have hediting : Editing keyA := show applyShift keyA.data keyA ≠ 10 by decide
  rw [bind_eq_ok] at hkeys
  obtain ⟨ed, hprompt, hkeys⟩ := hkeys
  rw [bind_eq_ok] at hkeys
  obtain ⟨⟨t, ed'⟩, hkeys, hlength⟩ := hkeys
  rw [hprompt, ok_bind, hkeys, ok_bind] at hpanic
  refine ⟨by decide, hediting, ed, t, ed', hprompt, Run.of_execAll (fun e he => ?_) hkeys,
    Except.ok.inj hlength, hpanic⟩
  rw [List.eq_of_mem_replicate he]
  exact hediting

/-- A line at the top of the screen. -/
theorem line_mirrored_firstRow : ∃ ed, prompt (fun _ => 0) ⟨fun _ => 0, 0, 0⟩ = .ok ed ∧ ∀ t ed',
    Run shellKey (fun _ ed e => Editing e ∧ ed.Fits e) ed t ed' → ed'.Mirrors ∧ ∀ e, Editing e →
      ((∃ ed'', shellKey e ed' = .ok (false, ed'') ∧ ed''.Mirrors) ↔ ed'.Fits e) :=
  line_mirrored ⟨fun _ => 0, 0, 0⟩ (fun _ => 0) (by decide)

end Hobby386
