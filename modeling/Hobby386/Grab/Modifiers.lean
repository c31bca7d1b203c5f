import Hobby386.Grab.Kbd

/-!
# The modifier keys

The flags of `struct keyboard_state` against the scan codes seen so far. A held key is one whose
last code was its make code, a lock is on after an odd number of make codes. The threshold that
tells the keys of the keyboard state from the others leaves out its own value, which is the code of
the left control key.
-/

namespace Hobby386

/-- The keys that have a flag in `struct keyboard_state`. -/
inductive StateKey
  | numlock
  | capslock
  | ralt
  | lalt
  | rctrl
  | lctrl
  | rshft
  | lshft
  deriving DecidableEq

namespace StateKey

/-- The make code of the key. -/
def make : StateKey → ScanCode
  | .numlock => .byte 0x45
  | .capslock => .byte 0x3a
  | .ralt => .extended 0x38
  | .lalt => .byte 0x38
  | .rctrl => .extended 0x1d
  | .lctrl => .byte 0x1d
  | .rshft => .byte 0x36
  | .lshft => .byte 0x2a

/-- The break code of the key. -/
def release : StateKey → ScanCode
  | .numlock => .byte 0xc5
  | .capslock => .byte 0xba
  | .ralt => .extended 0xb8
  | .lalt => .byte 0xb8
  | .rctrl => .extended 0x9d
  | .lctrl => .byte 0x9d
  | .rshft => .byte 0xb6
  | .lshft => .byte 0xaa

/-- The key in `enum nonprintable_keys`. -/
def key : StateKey → UInt8
  | .numlock => keyNum
  | .capslock => keyCaps
  | .ralt => keyRAlt
  | .lalt => keyLAlt
  | .rctrl => keyRCtrl
  | .lctrl => keyLCtrl
  | .rshft => keyRShft
  | .lshft => keyLShft

/-- The flag of the key. -/
def flag (s : KeyboardState) : StateKey → Bool
  | .numlock => s.numlock
  | .capslock => s.capslock
  | .ralt => s.ralt
  | .lalt => s.lalt
  | .rctrl => s.rctrl
  | .lctrl => s.lctrl
  | .rshft => s.rshft
  | .lshft => s.lshft

/-- The key is a lock, which is switched when it is pressed. -/
def isLock : StateKey → Bool
  | .numlock => true
  | .capslock => true
  | _ => false

/-- The key is on after the codes: a lock has been pressed an odd number of times, and of any other
key the last code was its make code. -/
def on (k : StateKey) (codes : List ScanCode) : Bool :=
  if k.isLock then codes.count k.make % 2 = 1
  else (codes.filter fun code => code = k.make ∨ code = k.release).getLast? = some k.make

end StateKey

/-- The flags are those of the codes seen. -/
def KeyboardState.Tracks (s : KeyboardState) (seen : List ScanCode) : Prop :=
  ∀ k : StateKey, k.flag s = k.on seen

/-- A make or break code of a key with a single-byte code, or of the right control or alt key. -/
def ScanCode.OfKey : ScanCode → Prop
  | .byte c => toMakeCode c ≤ maxScancode
  | .extended c => c = 0x1d ∨ c = 0x9d ∨ c = 0x38 ∨ c = 0xb8
  | _ => False

instance : (code : ScanCode) → Decidable code.OfKey
  | .byte c => inferInstanceAs (Decidable (toMakeCode c ≤ maxScancode))
  | .extended c => inferInstanceAs (Decidable (c = 0x1d ∨ c = 0x9d ∨ c = 0x38 ∨ c = 0xb8))
  | .pause => .isFalse id
  | .printMake => .isFalse id
  | .printBreak => .isFalse id

/-- After each code the flags are those of the codes seen so far, and the make codes of the keys
with a flag come out as no data event. -/
def TracksAll : Keyboard → (seen : List ScanCode) → List ScanCode → Prop
  | _, _, [] => True
  | kbd, seen, code :: codes => ∃ out, parseBytes kbd code.bytes = .ok out ∧
      (lastKeyboard kbd out).state.Tracks (seen ++ [code]) ∧
      (∀ k : StateKey, code = k.make → ∀ r ∈ out, r.1.hasdata = false) ∧
      TracksAll (lastKeyboard kbd out) (seen ++ [code]) codes

/-! ## One more code -/

/-- What a code does to the flag of a key. -/
def StateKey.next (k : StateKey) (code : ScanCode) (on : Bool) : Bool :=
  if code = k.make then !k.isLock || !on
  else if code = k.release then k.isLock && on
  else on

/-- No key is released with the code it is pressed with. -/
theorem StateKey.release_ne_make (k : StateKey) : k.release ≠ k.make := by cases k <;> decide

/-- One more code. -/
theorem StateKey.on_concat (k : StateKey) (seen : List ScanCode) (code : ScanCode) :
    k.on (seen ++ [code]) = k.next code (k.on seen) := by
  rw [StateKey.on, StateKey.on, StateKey.next]
  by_cases hlock : k.isLock = true
  · simp only [if_pos hlock, List.count_append, List.count_singleton]
    by_cases hmake : code = k.make
    · simp only [hmake, hlock, if_true, beq_self_eq_true, Bool.not_true, Bool.false_or]
      grind
    · simp [hmake, hlock]
  · simp only [if_neg hlock, List.filter_append]
    by_cases hmake : code = k.make
    · simp [hmake, hlock]
    · by_cases hrelease : code = k.release
      · simp [hrelease, hlock, k.release_ne_make]
      · simp [hmake, hrelease]

/-! ## One step of the state machine -/

/-- `update_state` sets the flag of its key and no other. -/
theorem StateKey.flag_updateState (k : StateKey) (kbd : Keyboard) (key : UInt8) (isMake : Bool) :
    k.flag (updateState kbd key isMake).state =
      if key = k.key then (if k.isLock then k.flag kbd.state ^^ isMake else isMake)
      else k.flag kbd.state := by
  simp only [updateState, apply_ite Keyboard.state, apply_ite (StateKey.flag · k)]
  cases k <;> grind [StateKey.flag, StateKey.key, StateKey.isLock]

/-- The table has the key of a make or break code, and for no other code. -/
theorem keyMap_eq_key_iff {c : UInt8} (hc : toMakeCode c ≤ maxScancode) (k : StateKey) :
    (keyMap[(toMakeCode c).toNat]? = some k.key ∧ isMakeCode c = true ↔ ScanCode.byte c = k.make) ∧
      (keyMap[(toMakeCode c).toNat]? = some k.key ∧ isMakeCode c = false ↔
        ScanCode.byte c = k.release) := by
  have htable : ∀ n < 256, toMakeCode (.ofNat n) ≤ maxScancode →
      ∀ k ∈ [StateKey.numlock, .capslock, .ralt, .lalt, .rctrl, .lctrl, .rshft, .lshft],
      (keyMap[(toMakeCode (.ofNat n)).toNat]? = some k.key ∧ isMakeCode (.ofNat n) = true ↔
        ScanCode.byte (.ofNat n) = k.make) ∧
      (keyMap[(toMakeCode (.ofNat n)).toNat]? = some k.key ∧ isMakeCode (.ofNat n) = false ↔
        ScanCode.byte (.ofNat n) = k.release) := by
    decide +kernel
  have h := htable c.toNat c.toNat_lt (by rwa [UInt8.ofNat_toNat]) k (by cases k <;> simp)
  rwa [UInt8.ofNat_toNat] at h

section Step

variable {kbd : Keyboard} {c : UInt8}

/-- What a single-byte code does to a flag is what `update_state` does with the key of the table. -/
theorem StateKey.next_byte (k : StateKey) (hc : toMakeCode c ≤ maxScancode) {key : UInt8}
    (hkey : keyMap[(toMakeCode c).toNat]? = some key) (on : Bool) :
    k.next (.byte c) on = if key = k.key then
      (if k.isLock then on ^^ isMakeCode c else isMakeCode c) else on := by
  obtain ⟨hmake, hrelease⟩ := keyMap_eq_key_iff hc k
  rw [hkey, Option.some.injEq] at hmake hrelease
  rw [StateKey.next]
  by_cases heq : key = k.key
  · rw [if_pos heq]
    cases hbit : isMakeCode c with
    | true =>
      rw [if_pos (hmake.mp ⟨heq, hbit⟩)]
      cases k.isLock <;> simp
    | false =>
      have hcode := hrelease.mp ⟨heq, hbit⟩
      rw [if_neg (by rw [hcode]; exact k.release_ne_make), if_pos hcode]
      cases k.isLock <;> simp
  · rw [if_neg heq, if_neg fun h => heq (hmake.mpr h).1, if_neg fun h => heq (hrelease.mpr h).1]

/-- The key of a table entry up to the threshold is none with a flag, unless the left control key is
pressed. -/
theorem StateKey.ne_key (k : StateKey) (hc : toMakeCode c ≤ maxScancode) (hne : c ≠ 0x1d) {key : UInt8}
    (hkey : keyMap[(toMakeCode c).toNat]? = some key) (hbit : isMakeCode c = true)
    (hlow : ¬stateRelatedKeyStart < key) : key ≠ k.key := by
  rintro rfl
  have hcode := (keyMap_eq_key_iff hc k).1.mp ⟨hkey, hbit⟩
  cases k <;> first | exact hlow (by decide) | exact hne (ScanCode.byte.inj hcode)

/-- A single-byte code but the make code of the left control key has its effect on the flags, and a
make code of a key with a flag is no data event. -/
theorem parseBytes_byte (hinit : kbd.parserState = .init) (hc : toMakeCode c ≤ maxScancode)
    (hne : c ≠ 0x1d) :
    ∃ e kbd', parseBytes kbd (ScanCode.byte c).bytes = .ok [(e, kbd')] ∧ kbd'.parserState = .init ∧
      (∀ k : StateKey, k.flag kbd'.state = k.next (.byte c) (k.flag kbd.state)) ∧
      ∀ k : StateKey, .byte c = k.make → e.hasdata = false := by
  have hvalid : (ScanCode.byte c).Valid := by
    constructor <;> rintro rfl <;> exact absurd hc (by decide)
  have hlt : (toMakeCode c).toNat < keyMap.length := by
    rw [UInt8.le_iff_toNat_le] at hc
    exact Nat.lt_succ_of_le hc
  obtain ⟨key, hkey⟩ : ∃ key, keyMap[(toMakeCode c).toNat]? = some key :=
    ⟨_, List.getElem?_eq_getElem hlt⟩
  rw [ScanCode.bytes, parseBytes, parseScancode, hinit]
  dsimp only
  rw [handleInitState]
  dsimp only
  rw [if_neg hvalid.2, if_neg hvalid.1, if_neg (UInt8.not_lt.mpr hc), hkey]
  dsimp only
  by_cases hnull : stateRelatedKeyStart < key ∨ isMakeCode c = false
  · rw [if_pos hnull, ok_bind, parseBytes, ok_bind]
    refine ⟨_, _, rfl, by rw [updateState_parserState], fun k => ?_, fun _ _ => rfl⟩
    rw [k.flag_updateState, k.next_byte hc hkey]
  · rw [if_neg hnull, ok_bind, parseBytes, ok_bind]
    rw [not_or, Bool.not_eq_false] at hnull
    refine ⟨_, _, rfl, rfl, fun k => ?_, fun k hk => ?_⟩
    · rw [k.next_byte hc hkey, if_neg (k.ne_key hc hne hkey hnull.2 hnull.1)]
    · have hmake := (keyMap_eq_key_iff hc k).1.mpr hk
      rw [hkey, Option.some.injEq] at hmake
      exact absurd hmake.1 (k.ne_key hc hne hkey hnull.2 hnull.1)

/-- The codes of the right control and alt keys. -/
theorem parseBytes_extended (hinit : kbd.parserState = .init) (hcode : (ScanCode.extended c).OfKey) :
    ∃ e₁ kbd₁ e₂ kbd₂, parseBytes kbd (ScanCode.extended c).bytes = .ok [(e₁, kbd₁), (e₂, kbd₂)] ∧
      kbd₂.parserState = .init ∧
      (∀ k : StateKey, k.flag kbd₂.state = k.next (.extended c) (k.flag kbd.state)) ∧
      e₁.hasdata = false ∧ e₂.hasdata = false := by
  obtain ⟨s, p, i⟩ := kbd
  cases hinit
  rcases hcode with rfl | rfl | rfl | rfl <;>
    exact ⟨_, _, _, _, rfl, rfl, fun k => by cases k <;> rfl, rfl, rfl⟩

/-- The make code of the left control key comes out as a data event. -/
theorem parseBytes_lctrl (hinit : kbd.parserState = .init) : parseBytes kbd StateKey.lctrl.make.bytes =
    .ok [(dataEvent ⟨kbd.state, .init, 0⟩ keyLCtrl false, ⟨kbd.state, .init, 0⟩)] := by
  obtain ⟨s, p, i⟩ := kbd
  cases hinit
  rfl

end Step

/-! ## All codes -/

/-- A code of a key but the make code of the left control key keeps the flags in step. -/
theorem tracks_code {kbd : Keyboard} {seen : List ScanCode} {code : ScanCode}
    (hinit : kbd.parserState = .init) (htracks : kbd.state.Tracks seen) (hcode : code.OfKey)
    (hne : code ≠ StateKey.lctrl.make) :
    ∃ out, parseBytes kbd code.bytes = .ok out ∧ (lastKeyboard kbd out).parserState = .init ∧
      (lastKeyboard kbd out).state.Tracks (seen ++ [code]) ∧
      ∀ k : StateKey, code = k.make → ∀ r ∈ out, r.1.hasdata = false := by
  cases code with
  | byte c =>
    obtain ⟨e, kbd', hparse, hlast, hflags, hdata⟩ :=
      parseBytes_byte hinit hcode fun h => hne (congrArg ScanCode.byte h)
    refine ⟨_, hparse, hlast, fun k => ?_, fun k hk r hr => ?_⟩
    · exact (hflags k).trans (by rw [htracks k, k.on_concat])
    · rw [List.mem_singleton.mp hr]
      exact hdata k hk
  | extended c =>
    obtain ⟨e₁, kbd₁, e₂, kbd₂, hparse, hlast, hflags, hfirst, hsecond⟩ :=
      parseBytes_extended hinit hcode
    refine ⟨_, hparse, hlast, fun k => ?_, fun k _ r hr => ?_⟩
    · exact (hflags k).trans (by rw [htracks k, k.on_concat])
    · rw [List.mem_cons, List.mem_singleton] at hr
      rcases hr with rfl | rfl
      · exact hfirst
      · exact hsecond
  | pause => exact hcode.elim
  | printMake => exact hcode.elim
  | printBreak => exact hcode.elim

/-- From a tracked state on, all modifiers are tracked unless the left control key is pressed. -/
theorem tracksAll_iff_of_tracks {kbd : Keyboard} {seen codes : List ScanCode}
    (hinit : kbd.parserState = .init) (htracks : kbd.state.Tracks seen)
    (hcodes : ∀ code ∈ codes, code.OfKey) :
    TracksAll kbd seen codes ↔ StateKey.lctrl.make ∉ codes := by
  induction codes generalizing kbd seen with
  | nil => simp [TracksAll]
  | cons code codes ih =>
    rw [List.forall_mem_cons] at hcodes
    rw [List.mem_cons, not_or]
    by_cases hlctrl : StateKey.lctrl.make = code
    · refine iff_of_false ?_ fun h => h.1 hlctrl
      rintro ⟨out, hparse, -, hdata, -⟩
      rw [← hlctrl, parseBytes_lctrl hinit] at hparse
      cases hparse
      exact absurd (hdata .lctrl hlctrl.symm _ (List.mem_singleton_self _)) (by simp [dataEvent])
    · obtain ⟨out, hparse, hlast, hnow, hdata⟩ := tracks_code hinit htracks hcodes.1 (Ne.symm hlctrl)
      rw [and_iff_right hlctrl, ← ih hlast hnow hcodes.2]
      constructor
      · rintro ⟨out', hparse', -, -, hrest⟩
        rw [hparse] at hparse'
        cases hparse'
        exact hrest
      · exact fun hrest => ⟨out, hparse, hnow, hdata, hrest⟩

/-- The flags follow the keys through a sequence of make and break codes if and only if the left
control key is never pressed. -/
theorem modifiers_track_iff {codes : List ScanCode} (hcodes : ∀ code ∈ codes, code.OfKey) :
    TracksAll Keyboard.boot [] codes ↔ StateKey.lctrl.make ∉ codes :=
  tracksAll_iff_of_tracks rfl (fun k => by cases k <;> rfl) hcodes

/-- The make code of the left control key comes out as the character 200, and its flag stays 0. -/
theorem not_modifiers_track : StateKey.lctrl.make.OfKey ∧
    ¬TracksAll Keyboard.boot [] [StateKey.lctrl.make] ∧
    parseBytes Keyboard.boot StateKey.lctrl.make.bytes =
      .ok [(dataEvent Keyboard.boot 200 false, Keyboard.boot)] := by
  refine ⟨by decide, ?_, rfl⟩
  rintro ⟨out, hparse, hflags, -⟩
  cases hparse
  exact absurd (hflags .lctrl) (by decide)

/-- The characterisation for both shift keys and the caps lock. -/
theorem modifiers_track_iff_shift :
    TracksAll Keyboard.boot [] [.byte 0x2a, .byte 0x36, .byte 0xaa, .byte 0x3a, .byte 0xba,
      .extended 0x1d] ↔
      StateKey.lctrl.make ∉
        [ScanCode.byte 0x2a, .byte 0x36, .byte 0xaa, .byte 0x3a, .byte 0xba, .extended 0x1d] := by
  exact modifiers_track_iff (by decide)

end Hobby386
