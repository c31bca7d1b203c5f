import Hobby386.Grab.CommandOutput
import Hobby386.Grab.LineBuffer
import Hobby386.Lib.Polling

/-!
# The line behind the prompt

A prompt at the start of a row leaves room for 74 characters up to the end of the row, and in the
last row up to the end of the screen. A line that is never longer is edited without a panic wherever
its prompt is, and its buffer holds the text of an editor on texts. With one more character in the
last row the driver panics.
-/

namespace Hobby386

open TextCursor Polling

/-- The characters that fit into a row behind the prompt. -/
@[simp] abbrev promptRoom : ℕ := 80 - 6

/-- The editor works on a text behind a prompt that has been printed at the start of a row. -/
structure Editor.Edits (ed : Editor) (t : Text UInt8 (cmdLen - 1)) : Prop where
  holds : ed.line.Holds t
  start_le : ed.start + promptRoom ≤ screenCells
  cursor_lt : (vgaGetCursor ed.vga).toNat < screenCells

/-- The line is never longer than a row has room for, whatever of the characters has been typed. -/
def StaysShort (t : Text UInt8 (cmdLen - 1)) (cs : List UInt8) : Prop :=
  ∀ cs', cs' <+: cs → (outputs (fun t c => textKey c t) t cs').2.chars.length ≤ promptRoom

instance (t : Text UInt8 (cmdLen - 1)) (cs : List UInt8) : Decidable (StaysShort t cs) :=
  decidable_of_iff (∀ cs' ∈ cs.inits,
    (outputs (fun t c => textKey c t) t cs').2.chars.length ≤ promptRoom)
    (by simp only [List.mem_inits, StaysShort])

variable {v : Vga} {ed : Editor} {t : Text UInt8 (cmdLen - 1)}

/-! ## The keys -/

/-- Characters without a control character move the cursor on by one cell each, as long as they end
on the screen. -/
theorem putchars_plain {s : List UInt8} (hs : ∀ c ∈ s, c ∉ controls)
    (hroom : (vgaGetCursor v).toNat + s.length < screenCells) :
    ∃ v', putchars v s = .ok v' ∧ (vgaGetCursor v').toNat = (vgaGetCursor v).toNat + s.length := by
  induction s generalizing v with
  | nil => exact ⟨v, rfl, rfl⟩
  | cons c s ih =>
    rw [List.forall_mem_cons] at hs
    rw [List.length_cons] at hroom
    have hc : c ≠ 8 ∧ c ≠ 9 ∧ c ≠ 10 ∧ c ≠ 13 := by simpa [controls] using hs.1
    obtain ⟨v₁, hscroll, -, hnext⟩ := scrollTo_next (v := v.put (vgaGetCursor v).toNat c blackWhite)
      (show (vgaGetCursor v).toNat + 1 < screenCells by omega)
    have hput : putchar v c = .ok v₁ := by
      have hsucc : UInt16.ofNat ((vgaGetCursor v).toNat + 1) = vgaGetCursor v + 1 := by
        rw [UInt16.ofNat_add, UInt16.ofNat_toNat]
        rfl
      rw [putchar, putcharIn, if_neg (by simp [hc]), if_neg hc.1, if_neg hc.2.1,
        vgaPutchar_returns (by omega), ok_bind, hsucc]
      exact hscroll
    obtain ⟨v', hrest, hcursor⟩ := ih hs.2 (show (vgaGetCursor v₁).toNat + s.length < screenCells by
      rw [hnext, vgaGetCursor_put]
      omega)
    refine ⟨v', by rw [putchars_cons, hput, ok_bind, hrest], ?_⟩
    rw [hcursor, hnext, vgaGetCursor_put, List.length_cons]
    omega

/-- The prompt at the start of a row. -/
theorem prompt_edits (hrow : v.AtRow) (buf : Memory) : ∃ ed, prompt buf v = .ok ed ∧
    ed.Edits .empty := by
  obtain ⟨hlt, hmod⟩ := hrow
  have hplain : ∀ c ∈ [(103 : UInt8), 114, 97, 98, 62, 32], c ∉ controls := by simp [controls]
  have hroom : (vgaGetCursor v).toNat + promptRoom + 6 ≤ screenCells := by
    simp only [promptRoom, screenCells] at hlt ⊢
    omega
  have hfits : (vgaGetCursor v).toNat + 6 < screenCells := by
    simp only [promptRoom, screenCells] at hroom ⊢
    omega
  obtain ⟨v', hprint, hcursor⟩ := putchars_plain hplain hfits
  have hcursor : (vgaGetCursor v').toNat = (vgaGetCursor v).toNat + 6 := hcursor
  simp only [promptRoom, screenCells] at hroom
  refine ⟨⟨v', (vgaGetCursor v').toNat, 0, buf, 0⟩, by rw [prompt, hprint, ok_bind],
    holds_empty buf, ?_, ?_⟩
  · simp only [promptRoom, screenCells]
    omega
  · simp only [screenCells]
    omega

/-- A key with room on the screen for what it puts into the line does not panic. -/
theorem shellKey_returns (hoff : ed.off ≤ ed.len) (hlen : ed.len < cmdLen)
    (hend : ed.start + ed.len ≤ screenCells) (hcursor : (vgaGetCursor ed.vga).toNat < screenCells)
    (e : KeyEvent) (hroom : isprint (applyShift e.data e) = true → ed.len < cmdLen - 1 →
    ed.start + ed.len < screenCells) :
    ∃ done ed', shellKey e ed = .ok (done, ed') ∧ ed'.start = ed.start ∧
      (vgaGetCursor ed'.vga).toNat < screenCells := by
  rw [shellKey]
  generalize applyShift e.data e = data at hroom
  by_cases henter : data = 10
  · rw [if_pos henter, setBuf_of_lt hlen, ok_bind]
    exact ⟨_, _, rfl, rfl, hcursor⟩
  rw [if_neg henter]
  by_cases hinsert : isprint data ∧ ed.len < cmdLen - 1
  · have hcell := hroom hinsert.1 hinsert.2
    obtain ⟨buf, v, hloop, -, -⟩ := openGap_shown ed.buf ed.vga ed.start ed.off hlen fun _ => hcell
    obtain ⟨v', hscroll, hcursor'⟩ := scrollTo_returns (v.put (ed.start + ed.off) data blackWhite)
      (vgaGetCursor (v.put (ed.start + ed.off) data blackWhite) + 1)
    rw [if_pos hinsert, insertKey, hloop, ok_bind, setBuf_of_lt (by omega), ok_bind,
      vgaPutchar_ofNat (by omega) _ (by decide), ok_bind, hscroll, ok_bind, ok_bind]
    exact ⟨_, _, rfl, rfl, hcursor'⟩
  rw [if_neg hinsert]
  by_cases hleft : data = keyLArrow ∧ 0 < ed.off
  · obtain ⟨v', hscroll, hcursor'⟩ := scrollTo_returns ed.vga (vgaGetCursor ed.vga - 1)
    rw [if_pos hleft, leftKey, hscroll, ok_bind, ok_bind]
    exact ⟨_, _, rfl, rfl, hcursor'⟩
  rw [if_neg hleft]
  by_cases hright : data = keyRArrow ∧ ed.off < ed.len
  · obtain ⟨v', hscroll, hcursor'⟩ := scrollTo_returns ed.vga (vgaGetCursor ed.vga + 1)
    rw [if_pos hright, rightKey, hscroll, ok_bind, ok_bind]
    exact ⟨_, _, rfl, rfl, hcursor'⟩
  rw [if_neg hright]
  by_cases hback : data = 8 ∧ 0 < ed.off
  · obtain ⟨buf, v, hloop, -, -⟩ :=
      closeGap_shown (i := ed.off - 1) (n := ed.len - (ed.off - 1)) ed.buf ed.vga ed.start
      (by omega) (by omega)
    obtain ⟨v', hscroll, hcursor'⟩ := scrollTo_returns (v.put (ed.start + ed.len - 1) 32 blackWhite)
      (vgaGetCursor (v.put (ed.start + ed.len - 1) 32 blackWhite) - 1)
    rw [if_pos hback, backspaceKey, hloop, ok_bind, vgaPutchar_ofNat (by omega) _ (by decide),
      ok_bind, hscroll, ok_bind, ok_bind]
    exact ⟨_, _, rfl, rfl, hcursor'⟩
  · rw [if_neg hback]
    exact ⟨_, _, rfl, rfl, hcursor⟩

/-- A key does to the line what it does to the text. -/
theorem Line.Holds.key {ln : Line} (h : ln.Holds t) (e : KeyEvent) : ∃ o ln' t',
    ln.key (applyShift e.data e) = .ok (o, ln') ∧
      textKey (applyShift e.data e) t = (o.map bufString, t') ∧ (o = none → ln'.Holds t') := by
  obtain ⟨r, ln', t', hline, htext, hholds⟩ := h.event (e, fun _ => 0)
  rw [lineEvent, bind_eq_ok] at hline
  obtain ⟨⟨o, ln₁⟩, hkey, hret⟩ := hline
  have hr : r = o ∧ (o = none → ln' = ln₁) := by
    cases o with
    | none =>
      cases hret
      exact ⟨rfl, fun _ => rfl⟩
    | some buf =>
      cases hret
      exact ⟨rfl, fun hnone => absurd hnone (by simp)⟩
  obtain ⟨rfl, hnone⟩ := hr
  exact ⟨r, ln₁, t', hkey, Except.ok.inj htext, fun ho => hnone ho ▸ hholds⟩

/-- A key that leaves a short line does what it does to the text, and the cursor stays on the screen. -/
theorem Editor.Edits.key (h : ed.Edits t) (e : KeyEvent) (hlength : t.chars.length ≤ promptRoom)
    (hshort : (textKey (applyShift e.data e) t).2.chars.length ≤ promptRoom) :
    ∃ done ed' t', shellKey e ed = .ok (done, ed') ∧
      textKey (applyShift e.data e) t = (if done then some (bufString ed'.buf) else none, t') ∧
      (vgaGetCursor ed'.vga).toNat < screenCells ∧ (done = false → ed'.Edits t') := by
  have hlen : t.chars.length = ed.len := h.holds.length_eq
  have hoff : ed.off ≤ ed.len := h.holds.off_le
  have hlt : ed.len < cmdLen := h.holds.len_lt
  have hstart := h.start_le
  simp only [promptRoom, screenCells] at hstart hlength hshort
  have hroom (hprint : isprint (applyShift e.data e) = true) (hfree : ed.len < cmdLen - 1) :
      ed.start + ed.len < screenCells := by
    have henter : applyShift e.data e ≠ 10 := fun henter => absurd hprint (by rw [henter]; decide)
    rw [textKey, if_neg henter, if_pos hprint, Text.insert,
      dif_pos (by rw [hlen]; exact hfree)] at hshort
    dsimp only at hshort
    rw [List.length_insertIdx_of_le_length t.cursor_le, hlen] at hshort
    simp only [screenCells]
    omega
  obtain ⟨done, ed', hcall, hsame, hcursor⟩ := shellKey_returns hoff hlt
    (by simp only [screenCells]; omega) h.cursor_lt e hroom
  obtain ⟨o, ln, t', hline, htext, hholds⟩ := h.holds.key e
  rw [key_of_shellKey hcall] at hline
  cases hline
  refine ⟨done, ed', t', hcall, ?_, hcursor, fun hdone => ⟨hholds (if_neg (by simp [hdone])),
    hsame ▸ h.start_le, hcursor⟩⟩
  rw [htext]
  cases done <;> rfl

/-! ## Lines that stay short -/

variable {c : UInt8} {cs cs' : List UInt8}

/-- A line that stays short is short now. -/
theorem StaysShort.length_le (h : StaysShort t cs) : t.chars.length ≤ promptRoom :=
  h [] List.nil_prefix

/-- The rest of the characters after the first one. -/
theorem StaysShort.tail (h : StaysShort t (c :: cs)) : StaysShort (textKey c t).2 cs :=
  fun cs' hcs' => h (c :: cs') (List.cons_prefix_cons.mpr ⟨rfl, hcs'⟩)

/-- The first characters of some. -/
theorem StaysShort.front (h : StaysShort t cs) (hfront : cs' <+: cs) : StaysShort t cs' :=
  fun cs'' hcs'' => h cs'' (hcs''.trans hfront)

/-- Characters, and others behind them. -/
theorem StaysShort.append (h : StaysShort t cs)
    (h' : StaysShort (outputs (fun t c => textKey c t) t cs).2 cs') :
    StaysShort t (cs ++ cs') := by
  intro cs'' hcs''
  rcases List.prefix_or_prefix_of_prefix hcs'' (List.prefix_append cs cs') with hfirst | ⟨rest, rfl⟩
  · exact h cs'' hfirst
  · rw [outputs_append]
    exact h' rest ((List.prefix_append_right_inj cs).mp hcs'')

end Hobby386
