import Hobby386.Fs.State

/-!
# The keyboard driver

The state machine of `parse_scancode`, which is fed with the bytes of the PS/2 controller one at a time.
It recognises every scan code as a whole but the two of the Print-Screen key: their sequences are matched
from the byte on that has led to them.
-/

namespace Hobby386

/-! ## Keys and events -/

@[simp] abbrev keyUnknown : UInt8 := 128
@[simp] abbrev keyF1 : UInt8 := 129
@[simp] abbrev keyF2 : UInt8 := 130
@[simp] abbrev keyF3 : UInt8 := 131
@[simp] abbrev keyF4 : UInt8 := 132
@[simp] abbrev keyF5 : UInt8 := 133
@[simp] abbrev keyF6 : UInt8 := 134
@[simp] abbrev keyF7 : UInt8 := 135
@[simp] abbrev keyF8 : UInt8 := 136
@[simp] abbrev keyF9 : UInt8 := 137
@[simp] abbrev keyF10 : UInt8 := 138
@[simp] abbrev keyF11 : UInt8 := 139
@[simp] abbrev keyF12 : UInt8 := 140
@[simp] abbrev keyPrnt : UInt8 := 142
@[simp] abbrev keyUArrow : UInt8 := 144
@[simp] abbrev keyLArrow : UInt8 := 145
@[simp] abbrev keyRArrow : UInt8 := 146
@[simp] abbrev keyDArrow : UInt8 := 147
@[simp] abbrev keyDelete : UInt8 := 148
@[simp] abbrev keyPause : UInt8 := 149
@[simp] abbrev stateRelatedKeyStart : UInt8 := 200
@[simp] abbrev keyLCtrl : UInt8 := stateRelatedKeyStart
@[simp] abbrev keyRCtrl : UInt8 := 201
@[simp] abbrev keyLShft : UInt8 := 202
@[simp] abbrev keyRShft : UInt8 := 203
@[simp] abbrev keyLAlt : UInt8 := 204
@[simp] abbrev keyRAlt : UInt8 := 205
@[simp] abbrev keyNum : UInt8 := 206
@[simp] abbrev keyScroll : UInt8 := 207
@[simp] abbrev keyCaps : UInt8 := 208
@[simp] abbrev maxScancode : UInt8 := 0x58

/-- `key_map`: the keys of the single-byte make codes, printable ones by their ASCII codes. -/
def keyMap : List UInt8 :=
  [keyUnknown, 0x1b, 49, 50, 51, 52, -- 1 2 3 4
    53, 54, 55, 56, 57, 48, -- 5 6 7 8 9 0
    45, 61, 8, 9, 113, 119, -- minus, equals, backspace, tab, q w
    101, 114, 116, 121, 117, 105, -- e r t y u i
    111, 112, 91, 93, 10, keyLCtrl, -- o p, the brackets, newline
    97, 115, 100, 102, 103, 104, -- a s d f g h
    106, 107, 108, 59, 39, 96, -- j k l, semicolon, the quotes
    keyLShft, 92, 122, 120, 99, 118, -- backslash, z x c v
    98, 110, 109, 44, 46, 47, -- b n m, comma, dot, slash
    keyRShft, 42, keyLAlt, 32, keyCaps, keyF1, -- star, blank
    keyF2, keyF3, keyF4, keyF5, keyF6, keyF7,
    keyF8, keyF9, keyF10, keyNum, keyScroll, 55, -- 7
    56, 57, 45, 52, 53, 54, -- 8 9, minus, 4 5 6
    43, 49, 50, 51, 48, 46, -- plus, 1 2 3 0, dot
    keyUnknown, keyUnknown, keyUnknown, keyF11, keyF12]

/-- `struct keyboard_state`. -/
structure KeyboardState where
  numlock : Bool
  capslock : Bool
  ralt : Bool
  lalt : Bool
  rctrl : Bool
  lctrl : Bool
  rshft : Bool
  lshft : Bool
  deriving DecidableEq

/-- `struct key_event`. -/
structure KeyEvent where
  data : UInt8
  raw : UInt8
  make : Bool
  keypad : Bool
  hasdata : Bool
  hasraw : Bool
  kbdstate : KeyboardState
  deriving DecidableEq

/-- `parser_state_t`. -/
inductive ParserState
  | init
  | pause
  | extended
  | printMake
  | printBreak
  deriving DecidableEq

/-- `keyboard_t`. -/
structure Keyboard where
  state : KeyboardState
  parserState : ParserState
  sequenceIndex : UInt8
  deriving DecidableEq

/-- The static struct `kbd` before the first byte. -/
def Keyboard.boot : Keyboard := ⟨⟨false, false, false, false, false, false, false, false⟩, .init, 0⟩

/-- `is_make_code`. -/
def isMakeCode (scancode : UInt8) : Bool := scancode &&& 0x80 = 0

/-- `to_make_code`. -/
def toMakeCode (breakcode : UInt8) : UInt8 := breakcode &&& 0x7f

/-- `null_event`. -/
def nullEvent : KeyEvent := ⟨0, 0, false, false, false, false, Keyboard.boot.state⟩

/-- `data_event`. -/
def dataEvent (kbd : Keyboard) (data : UInt8) (isKeypad : Bool) : KeyEvent :=
  { nullEvent with hasdata := true, data := data, keypad := isKeypad, kbdstate := kbd.state }

/-- `raw_event`. -/
def rawEvent (kbd : Keyboard) (raw : UInt8) : KeyEvent :=
  { nullEvent with hasraw := true, raw := raw, kbdstate := kbd.state }

/-- `is_keypad_key`. -/
def isKeypadKey (scancode : UInt8) : Bool := (0x47 ≤ scancode && scancode ≤ 0x53) || scancode = 0x37

/-! ## The state machine -/

/-- `update_state`. -/
def updateState (kbd : Keyboard) (key : UInt8) (isMake : Bool) : Keyboard :=
  let s := kbd.state
  if key = keyLCtrl then { kbd with state := { s with lctrl := isMake } }
  else if key = keyRCtrl then { kbd with state := { s with rctrl := isMake } }
  else if key = keyLShft then { kbd with state := { s with lshft := isMake } }
  else if key = keyRShft then { kbd with state := { s with rshft := isMake } }
  else if key = keyLAlt then { kbd with state := { s with lalt := isMake } }
  else if key = keyRAlt then { kbd with state := { s with ralt := isMake } }
  else if key = keyNum then { kbd with state := { s with numlock := s.numlock ^^ isMake } }
  else if key = keyCaps then { kbd with state := { s with capslock := s.capslock ^^ isMake } }
  else kbd

/-- `handle_init_state`. -/
def handleInitState (kbd : Keyboard) (scancode : UInt8) : Except Fault (KeyEvent × Keyboard) :=
  let kbd := { kbd with sequenceIndex := 0 }
  if scancode = 0xe1 then .ok (nullEvent, { kbd with parserState := .pause })
  else if scancode = 0xe0 then .ok (nullEvent, { kbd with parserState := .extended })
  else
    let kbd := { kbd with parserState := .init }
    let makeCode := toMakeCode scancode
    if maxScancode < makeCode then .ok (rawEvent kbd scancode, kbd)
    else
      match keyMap[makeCode.toNat]? with
      | none => .error .outOfBounds
      | some key =>
        if stateRelatedKeyStart < key ∨ isMakeCode scancode = false then
          .ok (nullEvent, updateState kbd key (isMakeCode scancode))
        else .ok (dataEvent kbd key (isKeypadKey makeCode), kbd)

/-- `handle_extended_state`. -/
def handleExtendedState (kbd : Keyboard) (scancode : UInt8) : KeyEvent × Keyboard :=
  let kbd := { kbd with parserState := .init }
  if scancode = 0x1c then (dataEvent kbd 47 true, kbd)
  else if scancode = 0x35 then (dataEvent kbd 10 true, kbd)
  else if scancode = 0x48 then (dataEvent kbd keyUArrow false, kbd)
  else if scancode = 0x4b then (dataEvent kbd keyLArrow false, kbd)
  else if scancode = 0x4d then (dataEvent kbd keyRArrow false, kbd)
  else if scancode = 0x50 then (dataEvent kbd keyDArrow false, kbd)
  else if scancode = 0x53 then (dataEvent kbd keyDelete false, kbd)
  else if scancode = 0x1d then (nullEvent, updateState kbd keyRCtrl true)
  else if scancode = 0x9d then (nullEvent, updateState kbd keyRCtrl false)
  else if scancode = 0x38 then (nullEvent, updateState kbd keyRAlt true)
  else if scancode = 0xb8 then (nullEvent, updateState kbd keyRAlt false)
  else if scancode = 0x2a then (nullEvent, { kbd with parserState := .printMake })
  else if scancode = 0xb7 then (nullEvent, { kbd with parserState := .printBreak })
  else (rawEvent kbd scancode, kbd)

/-- `handle_sequence_state`. -/
def handleSequenceState (kbd : Keyboard) (scancode : UInt8) (sequence : List UInt8)
    (nextState : ParserState) (isBreak : Bool) (keyCode : UInt8) : Except Fault (KeyEvent × Keyboard) :=
  match sequence[kbd.sequenceIndex.toNat]? with
  | none => .error .outOfBounds
  | some c =>
    if scancode ≠ c then
      let kbd := { kbd with parserState := .init }
      .ok (rawEvent kbd scancode, kbd)
    else if kbd.sequenceIndex.toNat = sequence.length - 1 then
      let kbd := { kbd with parserState := .init }
      .ok (if isBreak then nullEvent else dataEvent kbd keyCode false, kbd)
    else .ok (nullEvent, { kbd with parserState := nextState, sequenceIndex := kbd.sequenceIndex + 1 })

/-- `pause_sequence`. -/
def pauseSequence : List UInt8 := [0x1d, 0x45, 0xe1, 0x9d, 0xc5]

/-- `print_make_sequence`. -/
def printMakeSequence : List UInt8 := [0x2a, 0xe0, 0x37]

/-- `print_break_sequence`. -/
def printBreakSequence : List UInt8 := [0xb7, 0xe0, 0xaa]

/-- `parse_scancode`: one byte. -/
def parseScancode (kbd : Keyboard) (scancode : UInt8) : Except Fault (KeyEvent × Keyboard) :=
  match kbd.parserState with
  | .init => handleInitState kbd scancode
  | .pause => handleSequenceState kbd scancode pauseSequence .pause false keyPause
  | .extended => .ok (handleExtendedState kbd scancode)
  | .printMake => handleSequenceState kbd scancode printMakeSequence .printMake false keyPrnt
  | .printBreak => handleSequenceState kbd scancode printBreakSequence .printBreak true keyPrnt

/-- `apply_shift`. -/
def applyShift (c : UInt8) (event : KeyEvent) : UInt8 :=
  if event.kbdstate.lshft = false ∧ event.kbdstate.rshft = false then c
  else
    let c := if 97 ≤ c ∧ c ≤ 122 then c - 32 else c
    match c with
    | 96 => 126 -- backquote to tilde
    | 49 => 33 -- the digits to what is above them
    | 50 => 64
    | 51 => 35
    | 52 => 36
    | 53 => 37
    | 54 => 94
    | 55 => 38
    | 56 => 42
    | 57 => 40
    | 48 => 41
    | 91 => 123 -- the brackets and the backslash
    | 92 => 124
    | 93 => 125
    | 45 => 95 -- minus to underscore, equals to plus
    | 61 => 43
    | 59 => 58 -- semicolon to colon, the single to the double quote
    | 39 => 34
    | 44 => 60 -- comma, dot and slash
    | 46 => 62
    | 47 => 63
    | c => c

/-! ## Scan codes -/

/-- The event and the state after each byte of a stream. -/
def parseBytes : Keyboard → List UInt8 → Except Fault (List (KeyEvent × Keyboard))
  | _, [] => .ok []
  | kbd, c :: cs => do
    let r ← parseScancode kbd c
    let rs ← parseBytes r.2 cs
    .ok (r :: rs)

/-- A complete scan code. -/
inductive ScanCode
  | byte (c : UInt8)
  | extended (c : UInt8)
  | pause
  | printMake
  | printBreak
  deriving DecidableEq

/-- The bytes of a scan code. -/
def ScanCode.bytes : ScanCode → List UInt8
  | .byte c => [c]
  | .extended c => [0xe0, c]
  | .pause => [0xe1, 0x1d, 0x45, 0xe1, 0x9d, 0xc5]
  | .printMake => [0xe0, 0x2a, 0xe0, 0x37]
  | .printBreak => [0xe0, 0xb7, 0xe0, 0xaa]

/-- Short scan codes do not start like longer ones. -/
def ScanCode.Valid : ScanCode → Prop
  | .byte c => c ≠ 0xe0 ∧ c ≠ 0xe1
  | .extended c => c ≠ 0x2a ∧ c ≠ 0xb7
  | _ => True

/-- The scan code is one of the long sequences. -/
def ScanCode.Long : ScanCode → Prop
  | .byte _ => False
  | .extended _ => False
  | _ => True

/-- The one event of a key is its data event. -/
def OnlyData (key : UInt8) (es : List KeyEvent) : Prop :=
  ∃ e, es = [e] ∧ e.hasdata = true ∧ e.hasraw = false ∧ e.data = key

/-- The data and raw events that belong to a long sequence. -/
def ScanCode.Yields : ScanCode → List KeyEvent → Prop
  | .pause, es => OnlyData keyPause es
  | .printMake, es => OnlyData keyPrnt es
  | .printBreak, es => es = []
  | _, _ => True

/-- The events and states after the bytes of a scan code are as they should be: the state machine
comes back to its first state exactly at the end, and a long sequence yields its event and changes
no modifier. -/
structure Recognised (kbd : Keyboard) (code : ScanCode) (out : List (KeyEvent × Keyboard)) : Prop where
  boundary : ∀ k (h : k < out.length), (out.get ⟨k, h⟩).2.parserState = .init ↔ k + 1 = out.length
  events : code.Yields ((out.map Prod.fst).filter fun e => e.hasdata || e.hasraw)
  state : code.Long → ∀ r ∈ out, r.2.state = kbd.state

/-- The keyboard after the bytes. -/
def lastKeyboard (kbd : Keyboard) (out : List (KeyEvent × Keyboard)) : Keyboard :=
  (out.getLast?.map Prod.snd).getD kbd

/-- Every scan code of a stream is recognised. -/
def RecognisesAll : Keyboard → List ScanCode → Prop
  | _, [] => True
  | kbd, code :: codes => ∃ out, parseBytes kbd code.bytes = .ok out ∧ Recognised kbd code out ∧
      RecognisesAll (lastKeyboard kbd out) codes

variable {kbd : Keyboard} {c : UInt8}

/-- The modifier keys do not concern the parser. -/
theorem updateState_parserState (kbd : Keyboard) (key : UInt8) (isMake : Bool) :
    (updateState kbd key isMake).parserState = kbd.parserState := by
  simp only [updateState, apply_ite Keyboard.parserState, ite_self]

/-- A single-byte scan code leads back to the first state. -/
theorem handleInitState_byte (hvalid : (ScanCode.byte c).Valid) (kbd : Keyboard) :
    ∃ e kbd', handleInitState kbd c = .ok (e, kbd') ∧ kbd'.parserState = .init := by
  rw [handleInitState]
  dsimp only
  rw [if_neg hvalid.2, if_neg hvalid.1]
  split
  · exact ⟨_, _, rfl, rfl⟩
  · rename_i hmax
    have hlt : (toMakeCode c).toNat < keyMap.length := by
      rw [UInt8.not_lt, UInt8.le_iff_toNat_le] at hmax
      exact Nat.lt_succ_of_le hmax
    rw [List.getElem?_eq_getElem hlt]
    dsimp only
    split
    · exact ⟨_, _, rfl, by rw [updateState_parserState]⟩
    · exact ⟨_, _, rfl, rfl⟩

/-- The second byte of a two-byte scan code leads back to the first state. -/
theorem handleExtendedState_init (hvalid : (ScanCode.extended c).Valid) (kbd : Keyboard) :
    (handleExtendedState kbd c).2.parserState = .init := by
  simp only [handleExtendedState, if_neg hvalid.1, if_neg hvalid.2, apply_ite Prod.snd,
    apply_ite Keyboard.parserState, updateState_parserState, ite_self]

section Sequences

variable (s : KeyboardState) (i : UInt8)

/-- The six bytes of the Pause key. -/
theorem parseBytes_pause : parseBytes ⟨s, .init, i⟩ ScanCode.pause.bytes =
    .ok [(nullEvent, ⟨s, .pause, 0⟩), (nullEvent, ⟨s, .pause, 1⟩), (nullEvent, ⟨s, .pause, 2⟩),
      (nullEvent, ⟨s, .pause, 3⟩), (nullEvent, ⟨s, .pause, 4⟩),
      (dataEvent ⟨s, .init, 4⟩ keyPause false, ⟨s, .init, 4⟩)] := rfl

/-- The third byte of Print-Screen is compared with the second of its sequence, and the fourth is
taken for the star of the keypad. -/
theorem parseBytes_printMake : parseBytes ⟨s, .init, i⟩ ScanCode.printMake.bytes =
    .ok [(nullEvent, ⟨s, .extended, 0⟩), (nullEvent, ⟨s, .printMake, 0⟩),
      (rawEvent ⟨s, .init, 0⟩ 0xe0, ⟨s, .init, 0⟩), (dataEvent ⟨s, .init, 0⟩ 42 true,
        ⟨s, .init, 0⟩)] := rfl

/-- When Print-Screen is released, the fourth byte is taken for the release of the left shift key. -/
theorem parseBytes_printBreak : parseBytes ⟨s, .init, i⟩ ScanCode.printBreak.bytes =
    .ok [(nullEvent, ⟨s, .extended, 0⟩), (nullEvent, ⟨s, .printBreak, 0⟩),
      (rawEvent ⟨s, .init, 0⟩ 0xe0, ⟨s, .init, 0⟩),
      (nullEvent, ⟨{ s with lshft := false }, .init, 0⟩)] := rfl

/-- The sequence of Pause is recognised. -/
theorem recognised_pause : ∃ out, parseBytes ⟨s, .init, i⟩ ScanCode.pause.bytes = .ok out ∧
    Recognised ⟨s, .init, i⟩ .pause out := by
  refine ⟨_, parseBytes_pause s i, ?_, ?_, ?_⟩
  · intro k hk
    simp only [List.length_cons, List.length_nil] at hk ⊢
    interval_cases k <;> simp
  · exact ⟨_, rfl, rfl, rfl, rfl⟩
  · simp

/-- The sequences of Print-Screen are left in the middle. -/
theorem not_recognised_print {code : ScanCode} (hcode : code = .printMake ∨ code = .printBreak)
    {out : List (KeyEvent × Keyboard)} (h : parseBytes ⟨s, .init, i⟩ code.bytes = .ok out) :
    ¬Recognised ⟨s, .init, i⟩ code out := by
  intro hrec
  rcases hcode with rfl | rfl
  · rw [parseBytes_printMake] at h
    cases h
    have hend := (hrec.boundary 2 (by simp)).mp rfl
    simp at hend
  · rw [parseBytes_printBreak] at h
    cases h
    have hend := (hrec.boundary 2 (by simp)).mp rfl
    simp at hend

end Sequences

/-- A short scan code is recognised when its bytes lead back to the first state at the end and not
before. -/
theorem recognised_byte (hvalid : (ScanCode.byte c).Valid) (hinit : kbd.parserState = .init) :
    ∃ out, parseBytes kbd (ScanCode.byte c).bytes = .ok out ∧ Recognised kbd (.byte c) out := by
  obtain ⟨e, kbd', hcall, hlast⟩ := handleInitState_byte hvalid kbd
  refine ⟨[(e, kbd')], ?_, ?_, trivial, fun hlong => hlong.elim⟩
  · rw [ScanCode.bytes, parseBytes, parseScancode, hinit]
    dsimp only
    rw [hcall, ok_bind, parseBytes, ok_bind]
  · intro k hk
    obtain rfl : k = 0 := by simpa using hk
    simpa using hlast

/-- Extended codes are recognised. -/
theorem recognised_extended (hvalid : (ScanCode.extended c).Valid) (hinit : kbd.parserState = .init) :
    ∃ out, parseBytes kbd (ScanCode.extended c).bytes = .ok out ∧ Recognised kbd (.extended c) out := by
  obtain ⟨s, p, i⟩ := kbd
  cases hinit
  refine ⟨[(nullEvent, ⟨s, .extended, 0⟩), handleExtendedState ⟨s, .extended, 0⟩ c], rfl, ?_, trivial,
    fun hlong => hlong.elim⟩
  intro k hk
  simp only [List.length_cons, List.length_nil] at hk ⊢
  interval_cases k
  · simp
  · simpa using handleExtendedState_init hvalid ⟨s, .extended, 0⟩

/-- Every scan code but those of Print-Screen is recognised. -/
theorem recognised_of_ne {code : ScanCode} (hvalid : code.Valid) (hmake : code ≠ .printMake)
    (hbreak : code ≠ .printBreak) (hinit : kbd.parserState = .init) :
    ∃ out, parseBytes kbd code.bytes = .ok out ∧ Recognised kbd code out := by
  cases code with
  | byte c => exact recognised_byte hvalid hinit
  | extended c => exact recognised_extended hvalid hinit
  | pause =>
    obtain ⟨s, p, i⟩ := kbd
    cases hinit
    exact recognised_pause s i
  | printMake => exact absurd rfl hmake
  | printBreak => exact absurd rfl hbreak

/-- After a recognised scan code the next one starts in the first state. -/
theorem Recognised.last_init {code : ScanCode} {out : List (KeyEvent × Keyboard)}
    (h : Recognised kbd code out) (hinit : kbd.parserState = .init) :
    (lastKeyboard kbd out).parserState = .init := by
  rw [lastKeyboard]
  rcases List.eq_nil_or_concat out with rfl | ⟨front, r, rfl⟩
  · exact hinit
  · have hlast := (h.boundary front.length (by simp)).mpr (by simp)
    simpa using hlast

/-- A stream of complete scan codes is recognised if and only if Print-Screen is neither pressed nor
released. -/
theorem recognisesAll_iff (hinit : kbd.parserState = .init) {codes : List ScanCode}
    (hvalid : ∀ code ∈ codes, code.Valid) :
    RecognisesAll kbd codes ↔ ∀ code ∈ codes, code ≠ .printMake ∧ code ≠ .printBreak := by
  induction codes generalizing kbd with
  | nil => exact ⟨fun _ code hcode => absurd hcode List.not_mem_nil, fun _ => trivial⟩
  | cons code codes ih =>
    rw [List.forall_mem_cons] at hvalid ⊢
    constructor
    · rintro ⟨out, hparse, hrec, hrest⟩
      refine ⟨?_, (ih (hrec.last_init hinit) hvalid.2).mp hrest⟩
      obtain ⟨s, p, i⟩ := kbd
      cases hinit
      constructor
      · intro hcode
        exact not_recognised_print s i (.inl hcode) hparse hrec
      · intro hcode
        exact not_recognised_print s i (.inr hcode) hparse hrec
    · rintro ⟨⟨hmake, hbreak⟩, hcodes⟩
      obtain ⟨out, hparse, hrec⟩ := recognised_of_ne hvalid.1 hmake hbreak hinit
      exact ⟨out, hparse, hrec, (ih (hrec.last_init hinit) hvalid.2).mpr hcodes⟩

/-- The four bytes of a pressed Print-Screen key come out as an unknown byte and a star. -/
theorem not_recognisesAll_printMake : Keyboard.boot.parserState = .init ∧
    (∀ code ∈ [ScanCode.printMake], code.Valid) ∧ ¬RecognisesAll Keyboard.boot [.printMake] := by
  refine ⟨rfl, fun code hcode => ?_, ?_⟩
  · rw [List.mem_singleton.mp hcode]
    trivial
  · rintro ⟨out, hparse, hrec, -⟩
    exact not_recognised_print _ _ (.inl rfl) hparse hrec

/-- The characterisation for a stream with the Pause key. -/
theorem recognisesAll_iff_pause : RecognisesAll Keyboard.boot [.byte 0x1e, .pause] ↔
    ∀ code ∈ [ScanCode.byte 0x1e, .pause], code ≠ .printMake ∧ code ≠ .printBreak := by
  apply recognisesAll_iff rfl
  intro code hcode
  simp only [List.mem_cons, List.not_mem_nil, or_false] at hcode
  rcases hcode with rfl | rfl
  · exact ⟨by decide, by decide⟩
  · trivial

end Hobby386
