import Hobby386.Grab.PromptLine
import Hobby386.Grab.ScanBytes

/-!
# From the keyboard port to the commands

`kbd_poll_event` reads bytes from the keyboard controller until a scan code has come with a
character, and the loop of `shell` puts the characters into a line, on the screen and in a buffer,
and hands it to `process_command`. Whenever the bytes arrive, the commands that run are the lines of
an editor on texts for the whole stream of bytes, as long as each line fits into its row.
-/

namespace Hobby386

open Polling TextCursor

/-! ## The keyboard controller -/

/-- The keyboard controller: its buffer, and the bytes that arrive before each read of the status. -/
abbrev Kbc := Source UInt8

/-- `inb(PORT_STATUS) & STATUS_OUTBUF_FULL`. -/
def kbcFull (d : Kbc) : Bool × Kbc := (!d.look.buffer.isEmpty, d.look)

/-- `inb(PORT_DATA)`. -/
def kbcData (d : Kbc) : UInt8 × Kbc := (d.buffer.headD 0, { d with buffer := d.buffer.tail })

/-- The loop of `kbd_poll_event` that waits for a byte. -/
def waitFull : (fuel : ℕ) → Kbc → Option Kbc
  | 0, _ => none
  | fuel + 1, d =>
    let r := kbcFull d
    if r.1 then some r.2 else waitFull fuel r.2

/-- `kbd_poll_event`, `none` when the fuel is spent. -/
def kbdPollEvent : (fuel : ℕ) → Keyboard → Kbc → Except Fault (Option (KeyEvent × Keyboard × Kbc))
  | 0, _, _ => .ok none
  | fuel + 1, kbd, d =>
    match waitFull (fuel + 1) d with
    | none => .ok none
    | some d => do
      let c := kbcData d
      let r ← parseScancode kbd c.1
      if r.1.hasdata then .ok (some (r.1, r.2, c.2)) else kbdPollEvent fuel r.2 c.2

/-! ## The loop of the shell -/

/-- The C string at the start of some characters. -/
def CString.ofChars (s : List UInt8) : CString where
  bytes := cstr s
  nulFree h := by simpa using List.mem_takeWhile_imp h

/-- The command of a line that has been entered runs behind the end of the row, and what it prints
comes to the screen. -/
def runLine (cmdFuel : ℕ) (ed : Editor) (m : Machine) : Except Fault (Outcome × Vga × Machine) := do
  let v ← putchars ed.vga [10]
  let o ← processCommand cmdFuel (.ofChars (cells ed.buf cmdLen)) m
  let v ← printCalls v (o.2.printed.drop m.printed.length)
  .ok (o.1, v, o.2)

/-- Rounds of the loop of `shell`, up to a command that does not return. `leaves` is what
`process_command` makes of the buffer, and `leave` is how it goes on at the end. -/
def shellRounds {α : Type} (leaves : Memory → Memory)
    (leave : Outcome → Keyboard → Kbc → Vga → Machine → Except Fault (Option α)) (cmdFuel fuel : ℕ) :
    (rounds : ℕ) → Keyboard → Kbc → Editor → Machine → Except Fault (Option α)
  | 0, kbd, d, ed, m => leave .returned kbd d ed.vga m
  | rounds + 1, kbd, d, ed, m => do
    match ← kbdPollEvent fuel kbd d with
    | none => .ok none
    | some (e, kbd, d) => do
      let r ← shellKey e ed
      if r.1 then do
        let o ← runLine cmdFuel r.2 m
        match o.1 with
        | .returned => do
          let ed ← prompt (leaves r.2.buf) o.2.1
          shellRounds leaves leave cmdFuel fuel rounds kbd d ed o.2.2
        | outcome => leave outcome kbd d o.2.1 o.2.2
      else shellRounds leaves leave cmdFuel fuel rounds kbd d r.2 m

/-- `shell` from the `vga_reset` before its first prompt on. -/
def shellLoop {α : Type} (leaves : Memory → Memory)
    (leave : Outcome → Keyboard → Kbc → Vga → Machine → Except Fault (Option α))
    (cmdFuel fuel rounds : ℕ) (v : Vga) (kbd : Keyboard) (d : Kbc) (m : Machine) :
    Except Fault (Option α) := do
  let v ← vgaReset v
  let ed ← prompt (fun _ => 0) v
  shellRounds leaves leave cmdFuel fuel rounds kbd d ed m

/-- The end of a run that is looked at. -/
def report (o : Outcome) (_ : Keyboard) (_ : Kbc) (_ : Vga) (m : Machine) :
    Except Fault (Option (Outcome × Machine)) :=
  .ok (some (o, m))

/-- The commands of some lines, up to one that does not return. -/
def runCommands (cmdFuel : ℕ) : List (List UInt8) → Machine → Except Fault (Outcome × Machine)
  | [], m => .ok (.returned, m)
  | cmd :: cmds, m => do
    let o ← processCommand cmdFuel (.ofChars cmd) m
    match o.1 with
    | .returned => runCommands cmdFuel cmds o.2
    | outcome => .ok (outcome, o.2)

/-! ## The streams -/

/-- `parse_scancode` as a machine whose outputs are the events with data. Its states meet the bounds
of the tables. -/
def feed (kbd : {kbd : Keyboard // kbd.InStep}) (c : UInt8) :
    Option KeyEvent × {kbd : Keyboard // kbd.InStep} :=
  match h : parseScancode kbd.1 c with
  | .error _ => (none, kbd)
  | .ok r => (if r.1.hasdata then some r.1 else none, ⟨r.2, by
      obtain ⟨e, kbd', hcall, hstep⟩ := parseScancode_stepsTo kbd.2 c
      rw [h] at hcall
      cases hcall
      exact hstep.inStep⟩)

/-- The keyboard before the first byte. -/
def Keyboard.start : {kbd : Keyboard // kbd.InStep} := ⟨.boot, trivial⟩

/-- The events with data in a stream of bytes. -/
def dataEvents (bytes : List UInt8) : List KeyEvent := (outputs feed Keyboard.start bytes).1

/-- The character of an event behind `apply_shift`. -/
def KeyEvent.char (e : KeyEvent) : UInt8 := applyShift e.data e

/-- The lines that the editor on texts hands out. -/
def commandLines (es : List KeyEvent) : List (List UInt8) :=
  (outputs (fun t c => textKey c t) .empty (es.map KeyEvent.char)).1

variable {kbd : Keyboard} {d d' : Kbc} {c : UInt8}

/-- The machine is `parse_scancode`. -/
theorem feed_eq (kbd : {kbd : Keyboard // kbd.InStep}) (c : UInt8) :
    ∃ e kbd', parseScancode kbd.1 c = .ok (e, kbd'.1) ∧
      feed kbd c = (if e.hasdata then some e else none, kbd') := by
  obtain ⟨e, kbd', hcall, hstep⟩ := parseScancode_stepsTo kbd.2 c
  refine ⟨e, ⟨kbd', hstep.inStep⟩, hcall, ?_⟩
  rw [feed]
  split
  · rename_i h
    rw [hcall] at h
    cases h
  · rename_i r h
    rw [hcall] at h
    cases h
    rfl

/-- The events with data are those of `parseBytes`. -/
theorem outputs_feed (kbd : {kbd : Keyboard // kbd.InStep}) {bytes : List UInt8}
    {out : List (KeyEvent × Keyboard)} (h : parseBytes kbd.1 bytes = .ok out) :
    (outputs feed kbd bytes).1 = (out.map Prod.fst).filter fun e => e.hasdata := by
  induction bytes generalizing kbd out with
  | nil =>
    cases h
    rfl
  | cons c cs ih =>
    obtain ⟨e, kbd', hcall, hfeed⟩ := feed_eq kbd c
    rw [parseBytes, hcall, ok_bind, bind_eq_ok] at h
    obtain ⟨rest, hrest, h⟩ := h
    cases h
    rw [outputs, hfeed, List.map_cons, List.filter_cons]
    dsimp only
    rw [ih kbd' hrest]
    split <;> rfl

/-- The wait of the driver is the wait of the reader. -/
theorem waitFull_eq (fuel : ℕ) (d : Kbc) :
    (waitFull fuel d).map kbcData = wait fuel d := by
  induction fuel generalizing d with
  | zero => rfl
  | succ fuel ih =>
    rw [waitFull, wait, kbcFull]
    dsimp only
    cases hlook : d.look.buffer with
    | nil => simpa using ih d.look
    | cons b bs => simp [kbcData, hlook]

/-- `kbd_poll_event` is a poll of the machine. -/
theorem kbdPollEvent_eq (fuel : ℕ) (kbd : {kbd : Keyboard // kbd.InStep}) (d : Kbc) :
    kbdPollEvent fuel kbd.1 d = .ok ((poll feed fuel kbd d).map fun r => (r.1, r.2.1.1, r.2.2)) := by
  induction fuel generalizing kbd d with
  | zero => rfl
  | succ fuel ih =>
    rw [kbdPollEvent, poll, ← waitFull_eq]
    cases waitFull (fuel + 1) d with
    | none => rfl
    | some d =>
      obtain ⟨e, kbd', hcall, hfeed⟩ := feed_eq kbd (kbcData d).1
      simp only [Option.map_some, hcall, ok_bind, hfeed, ih]
      split <;> rfl

/-! ## The shell -/

variable {ed : Editor} {t : Text UInt8 (cmdLen - 1)} {e : KeyEvent}

/-- The text of the command buffer up to its end. -/
theorem ofChars_bufString (buf : Memory) : CString.ofChars (cells buf cmdLen) =
    CString.ofChars (bufString buf) :=
  CString.ext (cstr_of_nulFree (CString.ofChars (cells buf cmdLen)).nulFree).symm

/-- A text that is handed out leaves an empty one. -/
theorem textKey_some {data : UInt8} {s : List UInt8} {t' : Text UInt8 (cmdLen - 1)}
    (h : textKey data t = (some s, t')) : t' = .empty := by
  rw [textKey] at h
  split at h
  · exact (Prod.mk.inj h).2.symm
  · repeat' split at h
    all_goals cases h

/-- The next event with data is polled, whenever its bytes arrive. -/
theorem kbdPollEvent_returns (kbd : {kbd : Keyboard // kbd.InStep}) {bytes : List UInt8}
    {es : List KeyEvent} (h : (outputs feed kbd bytes).1 = e :: es) (hd : d.Has bytes) :
    ∃ calls kbd' d' rest, Source.Has d' rest ∧ (outputs feed kbd' rest).1 = es ∧
      ∀ fuel ≥ calls, kbdPollEvent fuel kbd.1 d = .ok (some (e, kbd'.1, d')) := by
  obtain ⟨calls, kbd', d', read, rest, -, -, hrest, -, hlater, hpoll⟩ := poll_returns h hd
  refine ⟨calls, kbd', d', rest, hrest, hlater, fun fuel hfuel => ?_⟩
  rw [kbdPollEvent_eq, hpoll fuel hfuel]
  rfl

/-- The text of a line is the command that runs. It fails as the command does, and otherwise the
cursor is at the start of a row behind the output. -/
theorem runLine_eq (hcursor : (vgaGetCursor ed.vga).toNat < screenCells) (cmdFuel : ℕ) (m : Machine) :
    match processCommand cmdFuel (.ofChars (bufString ed.buf)) m with
    | .error f => runLine cmdFuel ed m = .error f
    | .ok o => ∃ v, v.AtRow ∧ runLine cmdFuel ed m = .ok (o.1, v, o.2) := by
  obtain ⟨v, hnewline, hrow⟩ := putchars_atRow hcursor (s := [10]) rfl
  rw [runLine, hnewline, ok_bind, ofChars_bufString]
  cases hcall : processCommand cmdFuel (.ofChars (bufString ed.buf)) m with
  | error f => rfl
  | ok o =>
    obtain ⟨calls, hprinted, hout⟩ := processCommand_prints hcall
    obtain ⟨v', hprint, hrow'⟩ := hout.atRow hrow
    refine ⟨v', hrow', ?_⟩
    rw [ok_bind, hprinted, List.drop_left, hprint]
    rfl

/-- The commands of some lines, and those of others behind them. -/
theorem runCommands_append (cmdFuel : ℕ) (l l' : List (List UInt8)) (m : Machine) :
    runCommands cmdFuel (l ++ l') m =
      (runCommands cmdFuel l m >>= fun o =>
        match o.1 with
        | .returned => runCommands cmdFuel l' o.2
        | outcome => .ok (outcome, o.2)) := by
  induction l generalizing m with
  | nil => rfl
  | cons cmd l ih =>
    rw [List.cons_append, runCommands, runCommands]
    cases hcall : processCommand cmdFuel (.ofChars cmd) m with
    | error f => rfl
    | ok o =>
      obtain ⟨outcome, m'⟩ := o
      cases outcome with
      | returned => exact ih m'
      | boots => rfl
      | listing => rfl

/-- A round takes the next event with data, whenever its bytes arrive. It runs the command of the
line that the event ends, if it ends one, and then there is a text to be edited again. -/
theorem shellRounds_succ (kbd : {kbd : Keyboard // kbd.InStep}) {bytes : List UInt8}
    {es : List KeyEvent} (h : (outputs feed kbd bytes).1 = e :: es) (hd : d.Has bytes)
    (leaves : Memory → Memory) (cmdFuel : ℕ) (hedits : ed.Edits t)
    (hlength : t.chars.length ≤ promptRoom)
    (hshort : (textKey e.char t).2.chars.length ≤ promptRoom) (m : Machine) :
    ∃ calls kbd' d' rest, Source.Has d' rest ∧ (outputs feed kbd' rest).1 = es ∧
      match runCommands cmdFuel (textKey e.char t).1.toList m with
      | .error f => ∀ fuel ≥ calls, ∀ (α : Type)
          (leave : Outcome → Keyboard → Kbc → Vga → Machine → Except Fault (Option α)) (rounds : ℕ),
          shellRounds leaves leave cmdFuel fuel (rounds + 1) kbd.1 d ed m = .error f
      | .ok o => ∃ ed' v, Editor.Edits ed' (textKey e.char t).2 ∧ ∀ fuel ≥ calls, ∀ (α : Type)
          (leave : Outcome → Keyboard → Kbc → Vga → Machine → Except Fault (Option α)) (rounds : ℕ),
          shellRounds leaves leave cmdFuel fuel (rounds + 1) kbd.1 d ed m =
            match o.1 with
            | .returned => shellRounds leaves leave cmdFuel fuel rounds kbd'.1 d' ed' o.2
            | outcome => leave outcome kbd'.1 d' v o.2 := by
  obtain ⟨calls, kbd', d', rest, hrest, hes, hpoll⟩ := kbdPollEvent_returns kbd h hd
  refine ⟨calls, kbd', d', rest, hrest, hes, ?_⟩
  obtain ⟨done, ed₁, t', hkey, htext, hcursor, hnext⟩ := hedits.key e hlength hshort
  rw [KeyEvent.char, htext]
  cases done with
  | false =>
    refine ⟨ed₁, ed.vga, hnext rfl, fun fuel hfuel α leave rounds => ?_⟩
    rw [shellRounds, hpoll fuel hfuel]
    simp only [ok_bind, hkey]
    rfl
  | true =>
    obtain rfl := textKey_some htext
    have hline := runLine_eq hcursor cmdFuel m
    simp only [if_true, Option.toList_some, runCommands]
    cases hcall : processCommand cmdFuel (.ofChars (bufString ed₁.buf)) m with
    | error f =>
      rw [hcall] at hline
      intro fuel hfuel α leave rounds
      rw [shellRounds, hpoll fuel hfuel]
      simp only [ok_bind, hkey, if_true, hline]
      rfl
    | ok o =>
      obtain ⟨outcome, m'⟩ := o
      rw [hcall] at hline
      obtain ⟨v, hrow, hline⟩ := hline
      obtain ⟨ed', hprompt, hedits'⟩ := prompt_edits hrow (leaves ed₁.buf)
      cases outcome with
      | returned =>
        refine ⟨ed', v, hedits', fun fuel hfuel α leave rounds => ?_⟩
        rw [shellRounds, hpoll fuel hfuel]
        simp only [ok_bind, hkey, if_true, hline, hprompt]
      | boots =>
        refine ⟨ed', v, hedits', fun fuel hfuel α leave rounds => ?_⟩
        rw [shellRounds, hpoll fuel hfuel]
        simp only [ok_bind, hkey, if_true, hline]
      | listing =>
        refine ⟨ed', v, hedits', fun fuel hfuel α leave rounds => ?_⟩
        rw [shellRounds, hpoll fuel hfuel]
        simp only [ok_bind, hkey, if_true, hline]

/-- Whenever the bytes arrive, the commands that the shell runs for the first `k` events with data
are the lines of the editor on texts for these events. -/
theorem shellRounds_report (kbd : {kbd : Keyboard // kbd.InStep}) {bytes : List UInt8} {k : ℕ}
    (hk : k ≤ (outputs feed kbd bytes).1.length) (hd : d.Has bytes) (leaves : Memory → Memory)
    (cmdFuel : ℕ) (hedits : ed.Edits t)
    (hshort : StaysShort t (((outputs feed kbd bytes).1.take k).map KeyEvent.char)) (m : Machine) :
    ∃ calls, ∀ fuel ≥ calls, shellRounds leaves report cmdFuel fuel k kbd.1 d ed m = (runCommands cmdFuel
      (outputs (fun t c => textKey c t) t (((outputs feed kbd bytes).1.take k).map KeyEvent.char)).1
      m).map some := by
  induction k generalizing kbd d bytes ed t m with
  | zero => exact ⟨0, fun _ _ => rfl⟩
  | succ k ih =>
    obtain ⟨e, es, h⟩ := List.exists_cons_of_length_pos (Nat.lt_of_lt_of_le k.succ_pos hk)
    rw [h, List.length_cons, Nat.add_le_add_iff_right] at hk
    rw [h, List.take_succ_cons, List.map_cons] at hshort ⊢
    obtain ⟨calls, kbd', d', rest, hrest, rfl, hround⟩ := shellRounds_succ kbd h hd leaves cmdFuel
      hedits hshort.length_le hshort.tail.length_le m
    rw [outputs]
    dsimp only
    rw [runCommands_append]
    cases hcall : runCommands cmdFuel (textKey e.char t).1.toList m with
    | error f =>
      rw [hcall] at hround
      exact ⟨calls, fun fuel hfuel => hround fuel hfuel _ _ _⟩
    | ok o =>
      obtain ⟨outcome, m'⟩ := o
      rw [hcall] at hround
      obtain ⟨ed', v, hedits', hrounds⟩ := hround
      obtain ⟨calls', hlater⟩ := ih kbd' hk hrest hedits' hshort.tail m'
      refine ⟨max calls calls', fun fuel hfuel => ?_⟩
      rw [hrounds fuel (by omega), ok_bind]
      cases outcome with
      | returned => exact hlater fuel (by omega)
      | boots => rfl
      | listing => rfl

/-- `vga_reset` and the prompt start an empty line. -/
theorem vgaReset_prompt (v : Vga) : ∃ v' ed, vgaReset v = .ok v' ∧ prompt (fun _ => 0) v' = .ok ed ∧
    ed.Edits .empty := by
  obtain ⟨v', hreset, htyping, -⟩ := vgaReset_eq v
  obtain ⟨ed, hprompt, hedits⟩ :=
    prompt_edits (v := v') (by rw [Vga.AtRow, htyping.cursor]; decide) fun _ => 0
  exact ⟨v', ed, hreset, hprompt, hedits⟩

/-- Whenever the bytes of a stream arrive, the commands that the shell runs in its first rounds are
the lines that an editor on texts hands out for the first events of the stream, as long as the line
is never longer than a row has room for: no key is lost and none counts twice, and the machine is
the one after these commands. -/
theorem shell_runs_typed {bytes : List UInt8} {k : ℕ} (hk : k ≤ (dataEvents bytes).length)
    (hd : d.Has bytes) (hshort : StaysShort .empty (((dataEvents bytes).take k).map KeyEvent.char))
    (leaves : Memory → Memory) (cmdFuel : ℕ) (v : Vga) (m : Machine) : ∃ calls, ∀ fuel ≥ calls,
      shellLoop leaves report cmdFuel fuel k v Keyboard.boot d m =
        (runCommands cmdFuel (commandLines ((dataEvents bytes).take k)) m).map some := by
  obtain ⟨v', ed, hreset, hprompt, hedits⟩ := vgaReset_prompt v
  obtain ⟨calls, hrounds⟩ := shellRounds_report Keyboard.start hk hd leaves cmdFuel hedits hshort m
  refine ⟨calls, fun fuel hfuel => ?_⟩
  rw [shellLoop, hreset, ok_bind, hprompt, ok_bind, commandLines]
  exact hrounds fuel hfuel

/-- A controller at which one of the bytes arrives at each `m`-th look. -/
def spaced (m : ℕ) (bytes : List UInt8) : Kbc :=
  ⟨0, [], fun n => if n % m = 0 then bytes[n / m]?.toList else []⟩

/-- The keys of "lx", backspace, "s " and Enter. -/
def editedLs : List UInt8 := [0x26, 0xa6, 0x2d, 0xad, 0x0e, 0x8e, 0x1f, 0x9f, 0x39, 0xb9, 0x1c, 0x9c]

/-- The edited line arrives one byte at each third look and lists the drives. -/
theorem shell_runs_typed_ls : ∃ calls, ∀ fuel ≥ calls,
    shellLoop id report 0 fuel 6 lastRow Keyboard.boot (spaced 3 editedLs) threeDrives =
      .ok (some (.returned, ideList threeDrives)) := by
  have hline : commandLines ((dataEvents editedLs).take 6) = [[108, 115, 32]] := by decide +kernel
  have hhas : (spaced 3 editedLs).Has editedLs := ⟨36, by decide +kernel⟩
  have htyped := shell_runs_typed (show 6 ≤ (dataEvents editedLs).length by decide +kernel) hhas
    (by decide +kernel) id 0 lastRow threeDrives
  rwa [hline] at htyped

/-! ## Typing -/

/-- Whether a key gives a character, as it is or with the shift key. -/
def givesChar (shift : Bool) (c key : UInt8) : Bool :=
  key < keyLCtrl && applyShift key { nullEvent with kbdstate.lshft := shift } = c

/-- The bytes of the keys that are pressed and released for a character. -/
def strokes (c : UInt8) : List UInt8 :=
  match keyMap.findIdx? (givesChar false c), keyMap.findIdx? (givesChar true c) with
  | some n, _ => [.ofNat n, .ofNat n ||| 0x80]
  | none, some n => [0x2a, .ofNat n, .ofNat n ||| 0x80, 0xaa]
  | none, none => []

/-- The bytes of Enter. -/
def enterStroke : List UInt8 := [0x1c, 0x9c]

/-- The bytes of a line and Enter. -/
def typed (s : List UInt8) : List UInt8 := s.flatMap strokes ++ enterStroke

/-- Nothing is held: the next byte starts a scan code, and no shift key is down. -/
def Keyboard.Free (kbd : Keyboard) : Prop :=
  kbd.parserState = .init ∧ kbd.state.lshft = false ∧ kbd.state.rshft = false

/-- A shifted character only depends on the two shift keys. -/
theorem applyShift_congr {e e' : KeyEvent} (hleft : e.kbdstate.lshft = e'.kbdstate.lshft)
    (hright : e.kbdstate.rshft = e'.kbdstate.rshft) (c : UInt8) : applyShift c e = applyShift c e' := by
  simp only [applyShift, hleft, hright]

/-- The codes of the table are make codes, and with the highest bit set break codes. -/
theorem keyMap_codes : ∀ n < keyMap.length,
    ((.ofNat n : UInt8) ≠ 0xe1 ∧ (.ofNat n : UInt8) ≠ 0xe0 ∧ ¬maxScancode < toMakeCode (.ofNat n) ∧
      (toMakeCode (.ofNat n)).toNat = n ∧ isMakeCode (.ofNat n) = true) ∧
    ((.ofNat n ||| 0x80 : UInt8) ≠ 0xe1 ∧ (.ofNat n ||| 0x80 : UInt8) ≠ 0xe0 ∧
      ¬maxScancode < toMakeCode (.ofNat n ||| 0x80) ∧ (toMakeCode (.ofNat n ||| 0x80)).toNat = n ∧
      isMakeCode (.ofNat n ||| 0x80) = false) := by
  decide +kernel

/-- A key with a character that is pressed comes out as its event, and its release changes nothing. -/
theorem parseScancode_stroke (hinit : kbd.parserState = .init) {n : ℕ} (hn : n < keyMap.length)
    (hkey : keyMap[n] < keyLCtrl) :
    (∃ keypad, parseScancode kbd (.ofNat n) =
      .ok (dataEvent ⟨kbd.state, .init, 0⟩ keyMap[n] keypad, ⟨kbd.state, .init, 0⟩)) ∧
    parseScancode kbd (.ofNat n ||| 0x80) = .ok (nullEvent, ⟨kbd.state, .init, 0⟩) := by
  obtain ⟨⟨hpause, hextended, hmax, hcode, hmake⟩, hpause', hextended', hmax', hcode', hbreak⟩ :=
    keyMap_codes n hn
  have hhigh : ¬stateRelatedKeyStart < keyMap[n] := UInt8.not_lt.mpr (UInt8.le_of_lt hkey)
  have hidle : ∀ kbd : Keyboard, updateState kbd keyMap[n] false = kbd := by
    intro kbd
    have hne : ∀ key ≥ keyLCtrl, keyMap[n] ≠ key := fun key hge heq => by
      rw [heq] at hkey
      exact absurd hkey (UInt8.not_lt.mpr hge)
    rw [updateState, if_neg (hne _ (by decide)), if_neg (hne _ (by decide)), if_neg (hne _ (by decide)),
      if_neg (hne _ (by decide)), if_neg (hne _ (by decide)), if_neg (hne _ (by decide)),
      if_neg (hne _ (by decide)), if_neg (hne _ (by decide))]
  constructor
  · refine ⟨isKeypadKey (toMakeCode (.ofNat n)), ?_⟩
    rw [parseScancode, hinit]
    dsimp only
    rw [handleInitState, if_neg hpause, if_neg hextended, if_neg hmax, hcode,
      List.getElem?_eq_getElem hn]
    dsimp only
    rw [if_neg (by simp [hhigh, hmake])]
  · rw [parseScancode, hinit]
    dsimp only
    rw [handleInitState, if_neg hpause', if_neg hextended', if_neg hmax', hcode',
      List.getElem?_eq_getElem hn]
    dsimp only
    rw [if_pos (.inr hbreak), hbreak, hidle]

/-- The left shift key that is pressed or released. -/
theorem parseScancode_shift (hinit : kbd.parserState = .init) :
    parseScancode kbd 0x2a = .ok (nullEvent, ⟨{ kbd.state with lshft := true }, .init, 0⟩) ∧
      parseScancode kbd 0xaa = .ok (nullEvent, ⟨{ kbd.state with lshft := false }, .init, 0⟩) := by
  obtain ⟨state, parserState, index⟩ := kbd
  cases hinit
  exact ⟨rfl, rfl⟩

section Typed

variable {kbd : {kbd : Keyboard // kbd.InStep}} {kbd' : Keyboard} {s : List UInt8}

/-- One byte fed to the keyboard. -/
theorem feed_of_parse (h : parseScancode kbd.1 c = .ok (e, kbd')) :
    ∃ next : {kbd : Keyboard // kbd.InStep}, next.1 = kbd' ∧ feed kbd c = (if e.hasdata then
      some e else none, next) := by
  obtain ⟨e', next, hcall, hfeed⟩ := feed_eq kbd c
  rw [h] at hcall
  cases hcall
  exact ⟨next, rfl, hfeed⟩

/-- A key with a character that is pressed and released. -/
theorem outputs_stroke (hinit : kbd.1.parserState = .init) {n : ℕ} (hn : n < keyMap.length)
    (hkey : keyMap[n] < keyLCtrl) : ∃ e next, outputs feed kbd [.ofNat n, .ofNat n ||| 0x80] =
      ([e], next) ∧
      e.data = keyMap[n] ∧ e.kbdstate = kbd.1.state ∧ next.1 = ⟨kbd.1.state, .init, 0⟩ := by
  obtain ⟨⟨keypad, hmake⟩, -⟩ := parseScancode_stroke hinit hn hkey
  obtain ⟨held, hheld, hpress⟩ := feed_of_parse hmake
  have hagain : held.1.parserState = .init := by rw [hheld]
  obtain ⟨next, hnext, hrelease⟩ := feed_of_parse (parseScancode_stroke hagain hn hkey).2
  refine ⟨dataEvent ⟨kbd.1.state, .init, 0⟩ keyMap[n] keypad, next, ?_, rfl, rfl, by rw [hnext, hheld]⟩
  simp only [outputs, hpress, hrelease]
  rfl

/-- A key that is pressed and released while the left shift key is held. -/
theorem outputs_shifted (hinit : kbd.1.parserState = .init) {n : ℕ} (hn : n < keyMap.length)
    (hkey : keyMap[n] < keyLCtrl) :
    ∃ e next, outputs feed kbd [0x2a, .ofNat n, .ofNat n ||| 0x80, 0xaa] = ([e], next) ∧
      e.data = keyMap[n] ∧ e.kbdstate = { kbd.1.state with lshft := true } ∧
      next.1 = ⟨{ kbd.1.state with lshft := false }, .init, 0⟩ := by
  obtain ⟨held, hheld, hpress⟩ := feed_of_parse (parseScancode_shift hinit).1
  obtain ⟨e, next, hstroke, hdata, hstate, hnext⟩ :=
    outputs_stroke (show held.1.parserState = .init by rw [hheld]) hn hkey
  obtain ⟨released, hreleased, hrelease⟩ :=
    feed_of_parse (parseScancode_shift (show next.1.parserState = .init by rw [hnext])).2
  refine ⟨e, released, ?_, hdata, by rw [hstate, hheld], by rw [hreleased, hnext, hheld]⟩
  have hlast : outputs feed next [0xaa] = ([], released) := by
    simp only [outputs, hrelease]
    rfl
  have hrest := outputs_append feed held [.ofNat n, .ofNat n ||| 0x80] [0xaa]
  rw [hstroke, hlast, List.cons_append, List.cons_append, List.nil_append] at hrest
  rw [outputs, hpress]
  dsimp only
  rw [hrest]
  rfl

/-- Every printable character has a key. -/
theorem strokes_found (hc : isprint c = true) :
    (∃ n, ∃ hn : n < keyMap.length, givesChar false c keyMap[n] = true ∧
      strokes c = [.ofNat n, .ofNat n ||| 0x80]) ∨
    ∃ n, ∃ hn : n < keyMap.length, givesChar true c keyMap[n] = true ∧
      strokes c = [0x2a, .ofNat n, .ofNat n ||| 0x80, 0xaa] := by
  have htable : ∀ n < 256, isprint (.ofNat n) = true →
      keyMap.findIdx? (givesChar false (.ofNat n)) = none →
      (keyMap.findIdx? (givesChar true (.ofNat n))).isSome := by
    decide +kernel
  cases hplain : keyMap.findIdx? (givesChar false c) with
  | some n =>
    obtain ⟨hn, hgives, -⟩ := List.findIdx?_eq_some_iff_getElem.mp hplain
    refine .inl ⟨n, hn, hgives, ?_⟩
    rw [strokes, hplain]
  | none =>
    have hsome := htable c.toNat c.toNat_lt
    rw [UInt8.ofNat_toNat] at hsome
    obtain ⟨n, hshifted⟩ := Option.isSome_iff_exists.mp (hsome hc hplain)
    obtain ⟨hn, hgives, -⟩ := List.findIdx?_eq_some_iff_getElem.mp hshifted
    refine .inr ⟨n, hn, hgives, ?_⟩
    rw [strokes, hplain, hshifted]

/-- The keys for a character come out as one event, which gives the character. -/
theorem outputs_strokes (hfree : kbd.1.Free) (hc : isprint c = true) : ∃ e next,
    outputs feed kbd (strokes c) = ([e], next) ∧ e.char = c ∧ next.1.Free := by
  obtain ⟨hinit, hleft, hright⟩ := hfree
  rcases strokes_found hc with ⟨n, hn, hgives, hstrokes⟩ | ⟨n, hn, hgives, hstrokes⟩
  · rw [givesChar, Bool.and_eq_true, decide_eq_true_eq, decide_eq_true_eq] at hgives
    obtain ⟨e, next, hout, hdata, hstate, hnext⟩ := outputs_stroke hinit hn hgives.1
    refine ⟨e, next, hstrokes ▸ hout, ?_, by rw [Keyboard.Free, hnext]; exact ⟨rfl, hleft, hright⟩⟩
    rw [KeyEvent.char, hdata, ← hgives.2]
    exact applyShift_congr (by rw [hstate, hleft]) (by rw [hstate, hright]; rfl) _
  · rw [givesChar, Bool.and_eq_true, decide_eq_true_eq, decide_eq_true_eq] at hgives
    obtain ⟨e, next, hout, hdata, hstate, hnext⟩ := outputs_shifted hinit hn hgives.1
    refine ⟨e, next, hstrokes ▸ hout, ?_, by rw [Keyboard.Free, hnext]; exact ⟨rfl, rfl, hright⟩⟩
    rw [KeyEvent.char, hdata, ← hgives.2]
    exact applyShift_congr (by rw [hstate]) (by rw [hstate, hright]; rfl) _

/-- So do the keys for a line, and Enter behind it. -/
theorem outputs_typed (hfree : kbd.1.Free) (hs : ∀ c ∈ s, isprint c = true) : ∃ es next,
    outputs feed kbd (typed s) = (es, next) ∧ es.map KeyEvent.char = s ++ [10] ∧ next.1.Free := by
  have henter : keyMap[28] = 10 := rfl
  induction s generalizing kbd with
  | nil =>
    obtain ⟨hinit, hleft, hright⟩ := hfree
    obtain ⟨e, next, hout, hdata, hstate, hnext⟩ :=
      outputs_stroke hinit (show 28 < keyMap.length by decide) (by decide)
    refine ⟨[e], next, hout, ?_, by rw [Keyboard.Free, hnext]; exact ⟨rfl, hleft, hright⟩⟩
    rw [List.map_singleton, KeyEvent.char, hdata, henter, applyShift,
      if_pos ⟨by rw [hstate, hleft], by rw [hstate, hright]⟩]
    rfl
  | cons c s ih =>
    rw [List.forall_mem_cons] at hs
    obtain ⟨e, next, hout, hchar, hfree'⟩ := outputs_strokes hfree hs.1
    obtain ⟨es, last, hrest, hchars, hlast⟩ := ih hfree' hs.2
    refine ⟨e :: es, last, ?_, by rw [List.map_cons, hchar, hchars, List.cons_append], hlast⟩
    have happend := outputs_append feed kbd (strokes c) (typed s)
    rw [hout, hrest] at happend
    rw [typed, List.flatMap_cons, List.append_assoc]
    exact happend

/-- Lines that are typed one after the other. -/
theorem outputs_lines {lines : List (List UInt8)} (hfree : kbd.1.Free)
    (hprint : ∀ s ∈ lines, ∀ c ∈ s, isprint c = true) :
    ∃ es next, outputs feed kbd (lines.flatMap typed) = (es, next) ∧
      es.map KeyEvent.char = lines.flatMap (fun s => s ++ [10]) ∧ next.1.Free := by
  induction lines generalizing kbd with
  | nil => exact ⟨[], kbd, rfl, rfl, hfree⟩
  | cons s lines ih =>
    rw [List.forall_mem_cons] at hprint
    obtain ⟨es, next, hout, hchars, hfree'⟩ := outputs_typed hfree hprint.1
    obtain ⟨es', last, hout', hchars', hlast⟩ := ih hfree' hprint.2
    refine ⟨es ++ es', last, ?_, ?_, hlast⟩
    · rw [List.flatMap_cons, outputs_append, hout, hout']
    · rw [List.flatMap_cons, List.map_append, hchars, hchars']

end Typed

/-- The editor puts characters at its end into the text as long as there is room. -/
theorem textKey_append {s : List UInt8} (hs : ∀ c ∈ s, isprint c = true)
    (hend : t.cursor = t.chars.length) (hroom : t.chars.length + s.length < cmdLen) :
    ∃ t', t'.chars = t.chars ++ s ∧
      outputs (fun t data => textKey data t) t s = ([], t') := by
  induction s generalizing t with
  | nil => exact ⟨t, (List.append_nil _).symm, rfl⟩
  | cons c s ih =>
    rw [List.forall_mem_cons] at hs
    rw [List.length_cons] at hroom
    have hkey : textKey c t = (none, t.insert c) := by
      have henter : c ≠ 10 := by
        rintro rfl
        cases hs.1
      rw [textKey, if_neg henter, if_pos hs.1]
    have hlt : t.chars.length < cmdLen - 1 := by omega
    have hchars : (t.insert c).chars = t.chars ++ [c] := by
      rw [Text.insert, dif_pos hlt]
      change t.chars.insertIdx t.cursor c = _
      rw [hend, List.insertIdx_length_self]
    have hcursor : (t.insert c).cursor = (t.insert c).chars.length := by
      rw [hchars, List.length_append, List.length_singleton, ← hend, Text.insert, dif_pos hlt]
    obtain ⟨t', htext, hout⟩ :=
      ih hs.2 hcursor (by rw [hchars, List.length_append, List.length_singleton]; omega)
    refine ⟨t', by rw [htext, hchars, List.append_assoc, List.singleton_append], ?_⟩
    rw [outputs, hkey]
    dsimp only
    rw [hout]
    rfl

/-- The lines that have been typed are handed out, and leave an empty text. -/
theorem outputs_textKey_lines {lines : List (List UInt8)}
    (hprint : ∀ s ∈ lines, ∀ c ∈ s, isprint c = true) (hshort : ∀ s ∈ lines, s.length < cmdLen) :
    outputs (fun t data => textKey data t) .empty (lines.flatMap fun s => s ++ [10]) =
      (lines, .empty) := by
  induction lines with
  | nil => rfl
  | cons s lines ih =>
    rw [List.forall_mem_cons] at hprint hshort
    have hroom : (Text.empty : Text UInt8 (cmdLen - 1)).chars.length + s.length < cmdLen := by
      change 0 + s.length < cmdLen
      omega
    have hend : (Text.empty : Text UInt8 (cmdLen - 1)).cursor =
        (Text.empty : Text UInt8 (cmdLen - 1)).chars.length := rfl
    obtain ⟨t', hchars, hout⟩ := textKey_append hprint.1 hend hroom
    have henter : textKey 10 t' = (some s, .empty) := by
      rw [textKey, if_pos rfl, hchars]
      rfl
    rw [List.flatMap_cons, List.append_assoc, outputs_append, hout, List.singleton_append,
      outputs, henter]
    dsimp only
    rw [ih hprint.2 hshort.2]
    rfl

/-- Characters at the end of a text that stays short with them. -/
theorem staysShort_chars {s : List UInt8} (hs : ∀ c ∈ s, isprint c = true)
    (hend : t.cursor = t.chars.length) (hroom : t.chars.length + s.length ≤ promptRoom) :
    StaysShort t s := by
  rintro s' ⟨rest, rfl⟩
  rw [List.length_append] at hroom
  simp only [promptRoom] at hroom
  obtain ⟨t', hchars, hout⟩ := textKey_append (fun c hc => hs c (List.mem_append_left rest hc)) hend
    (show t.chars.length + s'.length < cmdLen by simp only [cmdLen]; omega)
  rw [hout]
  dsimp only
  rw [hchars, List.length_append]
  simp only [promptRoom]
  omega

/-- Lines of characters, each no longer than a row has room for. -/
theorem staysShort_lines {lines : List (List UInt8)} (hprint : ∀ s ∈ lines, ∀ c ∈ s, isprint c = true)
    (hshort : ∀ s ∈ lines, s.length ≤ promptRoom) :
    StaysShort .empty (lines.flatMap fun s => s ++ [10]) := by
  induction lines with
  | nil =>
    rintro cs hcs
    rw [List.flatMap_nil, List.prefix_nil] at hcs
    rw [hcs]
    exact Nat.zero_le _
  | cons s lines ih =>
    rw [List.forall_mem_cons] at hprint hshort
    have hlength : s.length ≤ 74 := hshort.1
    have hline := outputs_textKey_lines (List.forall_mem_singleton.mpr hprint.1)
      (List.forall_mem_singleton.mpr (show s.length < cmdLen by simp only [cmdLen]; omega))
    rw [List.flatMap_singleton] at hline
    rw [List.flatMap_cons]
    refine StaysShort.append ?_ (by rw [hline]; exact ih hprint.2 hshort.2)
    have hempty : (Text.empty : Text UInt8 (cmdLen - 1)).chars.length + s.length ≤ promptRoom := by
      change 0 + s.length ≤ promptRoom
      rw [Nat.zero_add]
      exact hshort.1
    refine (staysShort_chars hprint.1 rfl hempty).append fun cs hcs => ?_
    obtain ⟨t, hchars, hout⟩ := textKey_append hprint.1 (t := .empty) rfl
      (show 0 + s.length < cmdLen by simp only [cmdLen]; omega)
    rw [hout]
    rcases List.prefix_cons_iff.mp hcs with rfl | ⟨rest, rfl, hrest⟩
    · change t.chars.length ≤ promptRoom
      rw [hchars]
      exact hshort.1
    · rw [List.prefix_nil.mp hrest]
      exact Nat.zero_le _

/-- Command lines of printable characters, none longer than a row has room for, that are typed with
the keys of the keyboard, one after the other and at any speed, are the commands that run. -/
theorem typed_commands_run {lines : List (List UInt8)} (hprint : ∀ s ∈ lines, ∀ c ∈ s, isprint c = true)
    (hshort : ∀ s ∈ lines, s.length ≤ promptRoom) (hd : d.Has (lines.flatMap typed))
    (leaves : Memory → Memory) (cmdFuel : ℕ) (v : Vga) (m : Machine) : ∃ calls, ∀ fuel ≥ calls,
      shellLoop leaves report cmdFuel fuel (lines.map fun s => s.length + 1).sum v Keyboard.boot d m =
        (runCommands cmdFuel lines m).map some := by
  obtain ⟨es, next, hout, hchars, -⟩ :=
    outputs_lines (show Keyboard.start.1.Free from ⟨rfl, rfl, rfl⟩) hprint
  have hlength : (lines.map fun s => s.length + 1).sum = es.length := by
    have hsum := congrArg List.length hchars
    rw [List.length_map, List.length_flatMap] at hsum
    simpa using hsum.symm
  have hshort₁ (s : List UInt8) (hs : s ∈ lines) : s.length < cmdLen := by
    have hroom := hshort s hs
    simp only [promptRoom, cmdLen] at hroom ⊢
    omega
  have hall : ((outputs feed Keyboard.start (lines.flatMap typed)).1.take es.length).map KeyEvent.char =
      lines.flatMap fun s => s ++ [10] := by
    rw [hout, List.take_length]
    exact hchars
  have hk : es.length ≤ (outputs feed Keyboard.start (lines.flatMap typed)).1.length := by rw [hout]
  obtain ⟨v', ed, hreset, hprompt, hedits⟩ := vgaReset_prompt v
  obtain ⟨calls, hrounds⟩ := shellRounds_report Keyboard.start hk hd leaves cmdFuel hedits
    (by rw [hall]; exact staysShort_lines hprint hshort) m
  rw [hall, outputs_textKey_lines hprint hshort₁] at hrounds
  refine ⟨calls, fun fuel hfuel => ?_⟩
  rw [hlength, shellLoop, hreset, ok_bind, hprompt, ok_bind]
  exact hrounds fuel hfuel

/-- `ls` with a blank behind it, typed twice. -/
def lsTwice : List (List UInt8) := [[108, 115, 32], [108, 115, 32]]

/-- The two lines arrive with a byte at each second look and list the drives twice. -/
theorem typed_commands_run_ls : ∃ calls, ∀ fuel ≥ calls,
    shellLoop id report 0 fuel 8 lastRow Keyboard.boot (spaced 2 (lsTwice.flatMap typed)) threeDrives =
      .ok (some (.returned, ideList (ideList threeDrives))) :=
  typed_commands_run (show ∀ s ∈ lsTwice, ∀ c ∈ s, isprint c = true by decide +kernel) (by decide)
    (show (spaced 2 (lsTwice.flatMap typed)).Has
      (lsTwice.flatMap typed) from ⟨40, by decide +kernel⟩) id 0
    lastRow threeDrives

end Hobby386
