import Hobby386.Lib.TextCursor
import Hobby386.Fs.Path
import Hobby386.Grab.Editor

/-!
# The buffer of the line editor

The editing loop of `shell` without its writes to the screen. Its buffer holds a text with a cursor, and
the keys do to it what they say.
-/

namespace Hobby386

open Runs TextCursor

/-- The variables of the editing loop without the screen. -/
structure Line where
  off : ℕ
  buf : Memory
  len : ℕ

/-- The variables of the editor without the screen. -/
def Editor.line (ed : Editor) : Line := ⟨ed.off, ed.buf, ed.len⟩

/-- `buf[i]`. -/
def getBuf (buf : Memory) (i : ℕ) : Except Fault UInt8 :=
  if i < cmdLen then .ok (buf i) else .error .outOfBounds

/-- The loop of an insertion, with `i` counting down from the length. -/
def shiftUp (off : ℕ) : (i : ℕ) → Memory → Except Fault Memory
  | 0, buf => .ok buf
  | i + 1, buf =>
    if off < i + 1 then do
      let c ← getBuf buf i
      let buf ← setBuf buf (i + 1) c
      shiftUp off i buf
    else .ok buf

/-- The loop of a deletion from `i` on, with `n` rounds to go. -/
def shiftDown : (n i : ℕ) → Memory → Except Fault Memory
  | 0, _, buf => .ok buf
  | n + 1, i, buf => do
    let c ← getBuf buf (i + 1)
    let buf ← setBuf buf i c
    shiftDown n (i + 1) buf

/-- The loop body of `shell` without the screen, for a character after `apply_shift`. The result is the
buffer that goes to `process_command` if there is one. -/
def Line.key (data : UInt8) (ln : Line) : Except Fault (Option Memory × Line) :=
  if data = 10 then do
    let buf ← setBuf ln.buf ln.len 0
    .ok (some buf, { ln with buf := buf })
  else if isprint data ∧ ln.len < cmdLen - 1 then do
    let buf ← shiftUp ln.off ln.len ln.buf
    let buf ← setBuf buf ln.off data
    .ok (none, ⟨ln.off + 1, buf, ln.len + 1⟩)
  else if data = keyLArrow ∧ 0 < ln.off then .ok (none, { ln with off := ln.off - 1 })
  else if data = keyRArrow ∧ ln.off < ln.len then .ok (none, { ln with off := ln.off + 1 })
  else if data = 8 ∧ 0 < ln.off then do
    let buf ← shiftDown (ln.len - (ln.off - 1)) (ln.off - 1) ln.buf
    .ok (none, ⟨ln.off - 1, buf, ln.len - 1⟩)
  else .ok (none, ln)

/-- A round of the loop of `shell`, with what `process_command` leaves in the buffer if it is called. -/
def lineEvent (c : KeyEvent × Memory) (ln : Line) : Except Fault (Option Memory × Line) := do
  let r ← ln.key (applyShift c.1.data c.1)
  match r.1 with
  | none => .ok r
  | some cmd => .ok (some cmd, ⟨0, c.2, 0⟩)

/-- The editor on an abstract text. Enter hands out the text and starts a new one. -/
def textKey (data : UInt8) (t : Text UInt8 (cmdLen - 1)) :
    Option (List UInt8) × Text UInt8 (cmdLen - 1) :=
  if data = 10 then (some t.chars, .empty)
  else if isprint data then (none, t.insert data)
  else if data = keyLArrow then (none, t.left)
  else if data = keyRArrow then (none, t.right)
  else if data = 8 then (none, t.backspace)
  else (none, t)

/-- The abstract editor as a system that takes the same events. -/
def textEvent (c : KeyEvent × Memory) (t : Text UInt8 (cmdLen - 1)) :
    Except Fault (Option (List UInt8) × Text UInt8 (cmdLen - 1)) :=
  .ok (textKey (applyShift c.1.data c.1) t)

/-- The characters of the C string in a command buffer. -/
def bufString (buf : Memory) : List UInt8 := cstr (cells buf cmdLen)

/-! ## The screen can be left out -/

section Screen

variable {v v' : Vga} {buf buf' : Memory} {start off i n : ℕ}

/-- Opening a gap shifts the buffer, whatever happens on the screen. -/
theorem shiftUp_of_openGap (h : openGap start off i buf v = .ok (buf', v')) :
    shiftUp off i buf = .ok buf' := by
  induction i generalizing buf v with
  | zero =>
    cases h
    rfl
  | succ i ih =>
    rw [openGap] at h
    rw [shiftUp]
    split at h
    · rename_i hoff
      rw [bind_eq_ok] at h
      obtain ⟨v₁, -, h⟩ := h
      rw [bind_eq_ok] at h
      obtain ⟨buf₁, hset, h⟩ := h
      have hi : i < cmdLen := by
        rw [setBuf] at hset
        split at hset
        · omega
        · cases hset
      rw [if_pos hoff, getBuf, if_pos hi, ok_bind, hset, ok_bind, ih h]
    · rename_i hoff
      cases h
      rw [if_neg hoff]

/-- Closing a gap shifts the buffer, whatever happens on the screen. -/
theorem shiftDown_of_closeGap (h : closeGap start n i buf v = .ok (buf', v')) :
    shiftDown n i buf = .ok buf' := by
  induction n generalizing i buf v with
  | zero =>
    cases h
    rfl
  | succ n ih =>
    rw [closeGap] at h
    split at h
    · rename_i hi
      rw [bind_eq_ok] at h
      obtain ⟨v₁, -, h⟩ := h
      rw [bind_eq_ok] at h
      obtain ⟨buf₁, hset, h⟩ := h
      rw [shiftDown, getBuf, if_pos hi, ok_bind, hset, ok_bind, ih h]
    · cases h

/-- What the loop of `shell` does to the variables of the line does not depend on the screen. -/
theorem key_of_shellKey {e : KeyEvent} {ed ed' : Editor} {done : Bool}
    (h : shellKey e ed = .ok (done, ed')) :
    ed.line.key (applyShift e.data e) = .ok (if done then some ed'.buf else none, ed'.line) := by
  rw [shellKey] at h
  obtain ⟨vga, start, off, buf, len⟩ := ed
  change Line.key (applyShift e.data e) ⟨off, buf, len⟩ = _
  rw [Line.key]
  generalize applyShift e.data e = data at h ⊢
  by_cases henter : data = 10
  · rw [if_pos henter, bind_eq_ok] at h
    obtain ⟨buf, hset, h⟩ := h
    cases h
    rw [if_pos henter, hset, ok_bind, if_pos rfl]
    rfl
  rw [if_neg henter] at h ⊢
  by_cases hinsert : isprint data ∧ len < cmdLen - 1
  · rw [if_pos hinsert, insertKey] at h
    simp only [bind_eq_ok] at h
    obtain ⟨_, ⟨⟨buf, v⟩, hopen, buf', hset, v', -, v'', -, hed⟩, h⟩ := h
    cases hed
    cases h
    rw [if_pos hinsert, shiftUp_of_openGap hopen, ok_bind, hset, ok_bind, if_neg (by decide)]
    rfl
  rw [if_neg hinsert] at h ⊢
  by_cases hleft : data = keyLArrow ∧ 0 < off
  · rw [if_pos hleft, leftKey] at h
    simp only [bind_eq_ok] at h
    obtain ⟨_, ⟨v, -, hed⟩, h⟩ := h
    cases hed
    cases h
    rw [if_pos hleft, if_neg (by decide)]
    rfl
  rw [if_neg hleft] at h ⊢
  by_cases hright : data = keyRArrow ∧ off < len
  · rw [if_pos hright, rightKey] at h
    simp only [bind_eq_ok] at h
    obtain ⟨_, ⟨v, -, hed⟩, h⟩ := h
    cases hed
    cases h
    rw [if_pos hright, if_neg (by decide)]
    rfl
  rw [if_neg hright] at h ⊢
  by_cases hback : data = 8 ∧ 0 < off
  · rw [if_pos hback, backspaceKey] at h
    simp only [bind_eq_ok] at h
    obtain ⟨_, ⟨⟨buf, v⟩, hclose, v', -, v'', -, hed⟩, h⟩ := h
    cases hed
    cases h
    rw [if_pos hback, shiftDown_of_closeGap hclose, ok_bind, if_neg (by decide)]
    rfl
  · rw [if_neg hback] at h ⊢
    cases h
    rw [if_neg (by decide)]
    rfl

/-- Behind the prompt the line is empty. -/
theorem line_of_prompt {ed : Editor} (h : prompt buf v = .ok ed) : ed.line = ⟨0, buf, 0⟩ := by
  rw [prompt, bind_eq_ok] at h
  obtain ⟨v', -, h⟩ := h
  cases h
  rfl

end Screen

/-! ## The loops -/

section Loops

variable {off i n : ℕ}

/-- The loop of an insertion moves the characters between `off` and `i` up by one. -/
theorem shiftUp_eq (buf : Memory) (off : ℕ) (hi : i < cmdLen) : ∃ buf', shiftUp off i buf = .ok buf' ∧
    ∀ j, buf' j = if off < j ∧ j ≤ i then buf (j - 1) else buf j := by
  induction i generalizing buf with
  | zero => exact ⟨buf, rfl, fun j => by rw [if_neg (by omega)]⟩
  | succ i ih =>
    rw [shiftUp]
    by_cases hoff : off < i + 1
    · rw [if_pos hoff, getBuf, if_pos (by omega), ok_bind, setBuf_of_lt hi, ok_bind]
      obtain ⟨buf', hloop, hcells⟩ := ih (Function.update buf (i + 1) (buf i)) (by omega)
      refine ⟨buf', hloop, fun j => ?_⟩
      rw [hcells]
      by_cases hj : off < j ∧ j ≤ i
      · rw [if_pos hj, if_pos (by omega), Function.update_of_ne (by omega)]
      · rw [if_neg hj]
        by_cases hlast : j = i + 1
        · rw [hlast, Function.update_self, if_pos (by omega), Nat.add_sub_cancel]
        · rw [Function.update_of_ne hlast, if_neg (by omega)]
    · rw [if_neg hoff]
      exact ⟨buf, rfl, fun j => by rw [if_neg (by omega)]⟩

/-- The loop of a deletion moves the `n` characters behind `i` down by one. -/
theorem shiftDown_eq (buf : Memory) (hn : i + n < cmdLen) : ∃ buf', shiftDown n i buf = .ok buf' ∧
    ∀ j, buf' j = if i ≤ j ∧ j < i + n then buf (j + 1) else buf j := by
  induction n generalizing i buf with
  | zero => exact ⟨buf, rfl, fun j => by rw [if_neg (by omega)]⟩
  | succ n ih =>
    rw [shiftDown, getBuf, if_pos (by omega), ok_bind, setBuf_of_lt (by omega), ok_bind]
    obtain ⟨buf', hloop, hcells⟩ := ih (i := i + 1) (Function.update buf i (buf (i + 1))) (by omega)
    refine ⟨buf', hloop, fun j => ?_⟩
    rw [hcells]
    by_cases hj : i + 1 ≤ j ∧ j < i + 1 + n
    · rw [if_pos hj, if_pos (by omega), Function.update_of_ne (by omega)]
    · rw [if_neg hj]
      by_cases hfirst : j = i
      · rw [hfirst, Function.update_self, if_pos (by omega)]
      · rw [Function.update_of_ne hfirst, if_neg (by omega)]

end Loops

/-! ## The refinement -/

/-- The variables of the line hold a text, whose characters are not terminators. -/
structure Line.Holds (ln : Line) (t : Text UInt8 (cmdLen - 1)) : Prop where
  chars : cells ln.buf ln.len = t.chars
  cursor : ln.off = t.cursor
  nulFree : 0 ∉ t.chars

variable {ln : Line} {t : Text UInt8 (cmdLen - 1)}

namespace Line.Holds

/-- The text has the length of the line. -/
theorem length_eq (h : ln.Holds t) : t.chars.length = ln.len := by rw [← h.chars, length_cells]

/-- The position lies in the line. -/
theorem off_le (h : ln.Holds t) : ln.off ≤ ln.len := by
  rw [h.cursor, ← h.length_eq]
  exact t.cursor_le

/-- The line leaves room for its terminator. -/
theorem len_lt (h : ln.Holds t) : ln.len < cmdLen := by
  have hle := t.length_le
  rw [h.length_eq] at hle
  simp only [cmdLen] at hle ⊢
  omega

/-- An insertion. -/
theorem insert (h : ln.Holds t) {data : UInt8} (hdata : data ≠ 0) (hroom : ln.len < cmdLen - 1) :
    ∃ buf, (do
        let buf ← shiftUp ln.off ln.len ln.buf
        setBuf buf ln.off data) = .ok buf ∧
      Holds ⟨ln.off + 1, buf, ln.len + 1⟩ (t.insert data) := by
  have hoff := h.off_le
  have hlen := h.len_lt
  obtain ⟨buf, hloop, hcells⟩ := shiftUp_eq ln.buf ln.off hlen
  refine ⟨_, by rw [hloop, ok_bind, setBuf_of_lt (by omega)], ?_⟩
  rw [Text.insert, dif_pos (by rw [h.length_eq]; exact hroom)]
  refine ⟨?_, by rw [h.cursor], ?_⟩
  · dsimp only
    rw [← h.chars, ← h.cursor]
    refine cells_insertIdx hoff (fun i hi => ?_) (Function.update_self _ _ _) fun i hi hi' => ?_
    · rw [Function.update_of_ne (by omega), hcells, if_neg (by omega)]
    · rw [Function.update_of_ne (by omega), hcells, if_pos ⟨hi, hi'⟩]
  · intro hnul
    rcases (List.mem_insertIdx t.cursor_le).mp hnul with hnul | hnul
    · exact hdata hnul.symm
    · exact h.nulFree hnul

/-- A deletion. -/
theorem backspace (h : ln.Holds t) (hpos : 0 < ln.off) :
    ∃ buf, shiftDown (ln.len - (ln.off - 1)) (ln.off - 1) ln.buf = .ok buf ∧
      Holds ⟨ln.off - 1, buf, ln.len - 1⟩ t.backspace := by
  have hoff := h.off_le
  have hlen := h.len_lt
  obtain ⟨buf, hloop, hcells⟩ :=
    shiftDown_eq (i := ln.off - 1) (n := ln.len - (ln.off - 1)) ln.buf (by omega)
  have herase : t.backspace.chars = t.chars.eraseIdx (ln.off - 1) := by
    rw [h.cursor]
    exact if_pos (h.cursor ▸ hpos)
  refine ⟨buf, hloop, ?_, by rw [h.cursor]; rfl, ?_⟩
  · rw [herase, ← h.chars]
    dsimp only
    refine cells_eraseIdx (by omega) (fun i hi => ?_) fun i hi hi' => ?_
    · rw [hcells, if_neg (by omega)]
    · rw [hcells, if_pos (by omega)]
  · rw [herase]
    exact fun hnul => h.nulFree (List.mem_of_mem_eraseIdx hnul)

/-- Enter puts a terminator behind the text. -/
theorem enter (h : ln.Holds t) : ∃ buf, setBuf ln.buf ln.len 0 = .ok buf ∧ bufString buf = t.chars := by
  have hlen := h.len_lt
  obtain ⟨-, hchars⟩ := cells_eq_iff.mp h.chars
  refine ⟨_, setBuf_of_lt hlen 0, ?_⟩
  rw [bufString, cstr, takeWhile_cells hlen (fun i hi => ?_) (by simp)]
  · refine cells_eq_iff.mpr ⟨h.length_eq.symm, fun i hi => ?_⟩
    rw [Function.update_of_ne (by rw [h.length_eq] at hi; omega), hchars i hi]
  · have hi' : i < t.chars.length := h.length_eq ▸ hi
    rw [Function.update_of_ne (by omega), hchars i hi']
    refine decide_eq_true fun hnul => h.nulFree (hnul ▸ List.getElem_mem hi')

end Line.Holds

/-- The empty line holds the empty text, whatever is in the buffer. -/
theorem holds_empty (buf : Memory) : Line.Holds ⟨0, buf, 0⟩ .empty := ⟨rfl, rfl, List.not_mem_nil⟩

namespace Line.Holds

/-- A full line takes no further character. -/
theorem insert_full (h : ln.Holds t) (hfull : ¬ln.len < cmdLen - 1) (data : UInt8) :
    ln.Holds (t.insert data) := by
  rw [Text.insert, dif_neg (by rw [h.length_eq]; exact hfull)]
  exact h

/-- One position to the left. -/
theorem left (h : ln.Holds t) : Holds { ln with off := ln.off - 1 } t.left :=
  ⟨h.chars, by rw [h.cursor]; rfl, h.nulFree⟩

/-- One position to the right. -/
theorem right (h : ln.Holds t) (hlt : ln.off < ln.len) :
    Holds { ln with off := ln.off + 1 } t.right := by
  refine ⟨h.chars, ?_, h.nulFree⟩
  rw [h.cursor, ← h.length_eq] at hlt
  show ln.off + 1 = min (t.cursor + 1) t.chars.length
  rw [h.cursor, min_eq_left hlt]

/-- At the end of the line the right arrow does nothing. -/
theorem right_end (h : ln.Holds t) (hend : ¬ln.off < ln.len) : ln.Holds t.right := by
  refine ⟨h.chars, ?_, h.nulFree⟩
  have hle := t.cursor_le
  rw [h.cursor, ← h.length_eq] at hend
  show ln.off = min (t.cursor + 1) t.chars.length
  rw [h.cursor]
  omega

/-- At the start of the line the left arrow and the backspace do nothing. -/
theorem left_start (h : ln.Holds t) (hstart : ¬0 < ln.off) : ln.Holds t.left ∧ ln.Holds t.backspace := by
  have hzero : ln.off = t.cursor - 1 := by
    have hcursor := h.cursor
    omega
  have hkeep : t.backspace.chars = t.chars := if_neg (h.cursor ▸ hstart)
  exact ⟨⟨h.chars, hzero, h.nulFree⟩, h.chars.trans hkeep.symm, hzero, hkeep ▸ h.nulFree⟩

/-- A round of the loop does to the text what the key says. -/
theorem event (h : ln.Holds t) (c : KeyEvent × Memory) : ∃ r ln' t',
    lineEvent c ln = .ok (r, ln') ∧ textEvent c t = .ok (r.map bufString, t') ∧ ln'.Holds t' := by
  rw [lineEvent, textEvent, Line.key, textKey]
  generalize applyShift c.1.data c.1 = data
  by_cases henter : data = 10
  · obtain ⟨buf, hset, hstring⟩ := h.enter
    rw [if_pos henter, if_pos henter, hset]
    exact ⟨some buf, _, _, rfl, by rw [← hstring]; rfl, holds_empty _⟩
  rw [if_neg henter, if_neg henter]
  by_cases hprint : isprint data
  · have hdata : data ≠ 0 ∧ data ≠ keyLArrow ∧ data ≠ keyRArrow ∧ data ≠ 8 := by
      refine ⟨?_, ?_, ?_, ?_⟩ <;> (rintro rfl; cases hprint)
    rw [if_pos hprint]
    by_cases hroom : ln.len < cmdLen - 1
    · obtain ⟨buf, hloop, hholds⟩ := h.insert hdata.1 hroom
      rw [bind_eq_ok] at hloop
      obtain ⟨buf₁, hshift, hset⟩ := hloop
      rw [if_pos ⟨hprint, hroom⟩, hshift, ok_bind, hset]
      exact ⟨none, _, _, rfl, rfl, hholds⟩
    · rw [if_neg fun hp => hroom hp.2, if_neg fun hl => hdata.2.1 hl.1,
        if_neg fun hr => hdata.2.2.1 hr.1, if_neg fun hb => hdata.2.2.2 hb.1]
      exact ⟨none, _, _, rfl, rfl, h.insert_full hroom data⟩
  rw [if_neg hprint, if_neg fun hp => hprint hp.1]
  by_cases hleft : data = keyLArrow
  · have hother : data ≠ keyRArrow ∧ data ≠ 8 := by
      subst hleft
      decide
    rw [if_pos hleft]
    by_cases hpos : 0 < ln.off
    · rw [if_pos ⟨hleft, hpos⟩]
      exact ⟨none, _, _, rfl, rfl, h.left⟩
    · rw [if_neg fun hl => hpos hl.2, if_neg fun hr => hother.1 hr.1, if_neg fun hb => hpos hb.2]
      exact ⟨none, _, _, rfl, rfl, (h.left_start hpos).1⟩
  rw [if_neg hleft, if_neg fun hl => hleft hl.1]
  by_cases hright : data = keyRArrow
  · have hother : data ≠ 8 := by
      subst hright
      decide
    rw [if_pos hright]
    by_cases hlt : ln.off < ln.len
    · rw [if_pos ⟨hright, hlt⟩]
      exact ⟨none, _, _, rfl, rfl, h.right hlt⟩
    · rw [if_neg fun hr => hlt hr.2, if_neg fun hb => hother hb.1]
      exact ⟨none, _, _, rfl, rfl, h.right_end hlt⟩
  rw [if_neg hright, if_neg fun hr => hright hr.1]
  by_cases hback : data = 8
  · rw [if_pos hback]
    by_cases hpos : 0 < ln.off
    · obtain ⟨buf, hloop, hholds⟩ := h.backspace hpos
      rw [if_pos ⟨hback, hpos⟩, hloop]
      exact ⟨none, _, _, rfl, rfl, hholds⟩
    · rw [if_neg fun hb => hpos hb.2]
      exact ⟨none, _, _, rfl, rfl, (h.left_start hpos).2⟩
  · rw [if_neg hback, if_neg fun hb => hback hb.1]
    exact ⟨none, _, _, rfl, rfl, h⟩

end Line.Holds

/-- Whatever keys are pressed, the line editor does what the editor on texts does: its buffer holds
the text up to the length of the line, with the cursor at the offset, and Enter hands the text to
`process_command` as a C string. No index into the buffer leaves it, and the offset and the length
stay in their bounds. -/
theorem line_refines_text (cs : List (KeyEvent × Memory)) : ∃ t ln t',
    execAll lineEvent cs ⟨0, fun _ => 0, 0⟩ = .ok (t, ln) ∧
    execAll textEvent cs .empty = .ok (t.map fun e => (e.1, e.2.map bufString), t') ∧
    cells ln.buf ln.len = t'.chars ∧ ln.off = t'.cursor ∧ ln.off ≤ ln.len ∧ ln.len ≤ cmdLen - 1 := by
  obtain ⟨t, ln, t', hline, htext, hholds⟩ := execAll_simulates (R := Line.Holds) (Option.map bufString)
    (fun c _ _ h => h.event c) cs (holds_empty fun _ => 0)
  exact ⟨t, ln, t', hline, htext, hholds.chars, hholds.cursor, hholds.off_le,
    Nat.le_pred_of_lt hholds.len_lt⟩

end Hobby386
