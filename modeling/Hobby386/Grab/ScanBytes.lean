import Hobby386.Grab.Kbd

/-!
# Arbitrary bytes from the keyboard

The state machine of `parse_scancode` on bytes that need not form scan codes. The one index of the
three sequences stays in bounds because it is reset on the way into each of them, and the number of
bytes that can still come before the first state decreases with every byte.
-/

namespace Hobby386

/-- The sequence that a state compares with. -/
def ParserState.sequence : ParserState → List UInt8
  | .pause => pauseSequence
  | .printMake => printMakeSequence
  | .printBreak => printBreakSequence
  | _ => []

/-- The index lies in the sequence that the state compares with, or is 0 on the way to one. -/
def Keyboard.InStep (kbd : Keyboard) : Prop :=
  match kbd.parserState with
  | .init => True
  | .extended => kbd.sequenceIndex = 0
  | p => kbd.sequenceIndex.toNat < p.sequence.length

/-- The number of bytes after which the machine has been in its first state again. -/
def Keyboard.rest (kbd : Keyboard) : ℕ :=
  match kbd.parserState with
  | .init => 6
  | .extended => 4
  | p => p.sequence.length - kbd.sequenceIndex.toNat

/-- What one byte does: it leads to the first state, or one step further on the way there. -/
structure Keyboard.StepsTo (kbd kbd' : Keyboard) : Prop where
  inStep : kbd'.InStep
  nearer : kbd'.parserState ≠ .init → kbd'.rest < kbd.rest

variable {kbd kbd' : Keyboard}

/-- Back in the initial state nothing is left of a sequence. -/
theorem Keyboard.stepsTo_init (h : kbd'.parserState = .init) : kbd.StepsTo kbd' where
  inStep := by rw [Keyboard.InStep, h]; trivial
  nearer := fun hne => absurd h hne

/-- No sequence has more than five bytes behind its first one. -/
theorem ParserState.length_sequence_le (p : ParserState) : p.sequence.length ≤ 5 := by cases p <;> decide

/-- At most six bytes are left. -/
theorem Keyboard.rest_le (kbd : Keyboard) : kbd.rest ≤ 6 := by
  have hlength := kbd.parserState.length_sequence_le
  rw [Keyboard.rest]
  split <;> omega

/-- At least one byte is left. -/
theorem Keyboard.InStep.rest_pos (h : kbd.InStep) : 0 < kbd.rest := by
  rw [InStep] at h
  rw [Keyboard.rest]
  split at h <;> simp_all

/-- In the first state every access to the table is in bounds. -/
theorem handleInitState_stepsTo (hinit : kbd.parserState = .init) (c : UInt8) :
    ∃ e kbd', handleInitState kbd c = .ok (e, kbd') ∧ kbd.StepsTo kbd' := by
  obtain ⟨s, p, i⟩ := kbd
  cases hinit
  by_cases hpause : c = 0xe1
  · refine ⟨nullEvent, ⟨s, .pause, 0⟩, by rw [handleInitState, if_pos hpause], ?_, fun _ => ?_⟩
    · simp [Keyboard.InStep, ParserState.sequence, pauseSequence]
    · simp [Keyboard.rest, ParserState.sequence, pauseSequence]
  · by_cases hextended : c = 0xe0
    · refine ⟨nullEvent, ⟨s, .extended, 0⟩, ?_, by simp [Keyboard.InStep],
        fun _ => by simp [Keyboard.rest]⟩
      rw [handleInitState, if_neg hpause, if_pos hextended]
    · obtain ⟨e, kbd', hcall, hlast⟩ := handleInitState_byte ⟨hextended, hpause⟩ ⟨s, .init, i⟩
      exact ⟨e, kbd', hcall, Keyboard.stepsTo_init hlast⟩

/-- Behind the first byte of an extended code the index is 0. -/
theorem handleExtendedState_stepsTo (hstate : kbd.parserState = .extended)
    (hindex : kbd.sequenceIndex = 0) (c : UInt8) : kbd.StepsTo (handleExtendedState kbd c).2 := by
  obtain ⟨s, p, i⟩ := kbd
  cases hstate
  cases hindex
  by_cases hvalid : (ScanCode.extended c).Valid
  · exact Keyboard.stepsTo_init (handleExtendedState_init hvalid _)
  · rw [ScanCode.Valid, not_and_or, not_not, not_not] at hvalid
    rcases hvalid with rfl | rfl
    · refine ⟨?_, fun _ => ?_⟩
      · simp [handleExtendedState, Keyboard.InStep, ParserState.sequence, printMakeSequence]
      · simp [handleExtendedState, Keyboard.rest, ParserState.sequence, printMakeSequence]
    · refine ⟨?_, fun _ => ?_⟩
      · simp [handleExtendedState, Keyboard.InStep, ParserState.sequence, printBreakSequence]
      · simp [handleExtendedState, Keyboard.rest, ParserState.sequence, printBreakSequence]

/-- In a sequence the index moves on by one, or the sequence is left. -/
theorem handleSequenceState_stepsTo (hinit : kbd.parserState ≠ .init)
    (hextended : kbd.parserState ≠ .extended) (h : kbd.InStep) (c : UInt8) (isBreak : Bool)
    (keyCode : UInt8) :
    ∃ e kbd', handleSequenceState kbd c kbd.parserState.sequence kbd.parserState isBreak keyCode =
      .ok (e, kbd') ∧
      kbd.StepsTo kbd' := by
  have hlength := kbd.parserState.length_sequence_le
  have hindex : kbd.sequenceIndex.toNat < kbd.parserState.sequence.length := by
    rw [Keyboard.InStep] at h
    split at h <;> simp_all
  have hrest : ∀ i, Keyboard.rest ⟨kbd.state, kbd.parserState, i⟩ =
      kbd.parserState.sequence.length - i.toNat := by
    intro i
    rw [Keyboard.rest]
    split <;> simp_all
  have hstep : ∀ i, Keyboard.InStep ⟨kbd.state, kbd.parserState, i⟩ ↔
      i.toNat < kbd.parserState.sequence.length := by
    intro i
    rw [Keyboard.InStep]
    split <;> simp_all
  rw [handleSequenceState, List.getElem?_eq_getElem hindex]
  dsimp only
  split
  · exact ⟨_, _, rfl, Keyboard.stepsTo_init rfl⟩
  · split
    · exact ⟨_, _, rfl, Keyboard.stepsTo_init rfl⟩
    · rename_i hlast
      have hnext : (kbd.sequenceIndex + 1).toNat = kbd.sequenceIndex.toNat + 1 := by
        rw [UInt8.toNat_add]
        exact Nat.mod_eq_of_lt (show kbd.sequenceIndex.toNat + 1 < 256 by omega)
      refine ⟨_, _, rfl, (hstep _).mpr (by omega), fun _ => ?_⟩
      have hold : kbd.rest = kbd.parserState.sequence.length - kbd.sequenceIndex.toNat :=
        hrest kbd.sequenceIndex
      rw [hrest, hnext]
      omega

/-- Every byte is handled within the bounds of the table and of the sequences. -/
theorem parseScancode_stepsTo (h : kbd.InStep) (c : UInt8) :
    ∃ e kbd', parseScancode kbd c = .ok (e, kbd') ∧ kbd.StepsTo kbd' := by
  obtain ⟨s, p, i⟩ := kbd
  cases p with
  | init => exact handleInitState_stepsTo rfl c
  | extended => exact ⟨_, _, rfl, handleExtendedState_stepsTo rfl h c⟩
  | pause => exact handleSequenceState_stepsTo (by simp) (by simp) h c false keyPause
  | printMake => exact handleSequenceState_stepsTo (by simp) (by simp) h c false keyPrnt
  | printBreak => exact handleSequenceState_stepsTo (by simp) (by simp) h c true keyPrnt

/-! ## Any number of bytes -/

/-- The keyboard behind the first output and the rest. -/
theorem lastKeyboard_cons (kbd : Keyboard) (r : KeyEvent × Keyboard) (out : List (KeyEvent × Keyboard)) :
    lastKeyboard kbd (r :: out) = lastKeyboard r.2 out := by
  rw [lastKeyboard, lastKeyboard, List.getLast?_cons]
  cases out.getLast? <;> rfl

/-- All bytes are handled. -/
theorem parseBytes_inStep (h : kbd.InStep) (bytes : List UInt8) :
    ∃ out, parseBytes kbd bytes = .ok out ∧ (lastKeyboard kbd out).InStep := by
  induction bytes generalizing kbd with
  | nil => exact ⟨[], rfl, h⟩
  | cons c cs ih =>
    obtain ⟨e, kbd', hcall, hstep⟩ := parseScancode_stepsTo h c
    obtain ⟨out, hparse, hlast⟩ := ih hstep.inStep
    refine ⟨(e, kbd') :: out, ?_, by rwa [lastKeyboard_cons]⟩
    rw [parseBytes, hcall, ok_bind, hparse, ok_bind]

/-- The first state is met again before the number of bytes left is used up. -/
theorem parseBytes_meets_init (h : kbd.InStep) {bytes : List UInt8} (hlength : kbd.rest ≤ bytes.length) :
    ∃ out, parseBytes kbd bytes = .ok out ∧
      ∃ k < kbd.rest, ∃ r, out[k]? = some r ∧ r.2.parserState = .init := by
  induction bytes generalizing kbd with
  | nil =>
    have hpos := h.rest_pos
    rw [List.length_nil] at hlength
    omega
  | cons c cs ih =>
    obtain ⟨e, kbd', hcall, hstep⟩ := parseScancode_stepsTo h c
    by_cases hinit : kbd'.parserState = .init
    · obtain ⟨out, hparse, -⟩ := parseBytes_inStep hstep.inStep cs
      refine ⟨(e, kbd') :: out, ?_, 0, h.rest_pos, (e, kbd'), rfl, hinit⟩
      rw [parseBytes, hcall, ok_bind, hparse, ok_bind]
    · have hnearer := hstep.nearer hinit
      rw [List.length_cons] at hlength
      obtain ⟨out, hparse, k, hk, r, hr, hlast⟩ := ih hstep.inStep (by omega)
      refine ⟨(e, kbd') :: out, ?_, k + 1, by omega, r, by rwa [List.getElem?_cons_succ], hlast⟩
      rw [parseBytes, hcall, ok_bind, hparse, ok_bind]

/-- Whatever bytes have come, all of them are handled within the bounds of the table and of the
sequences, and whatever bytes come next, the state after one of the next six is the first one. -/
theorem parseBytes_synchronises (bytes : List UInt8) {further : List UInt8} (hsix : 6 ≤ further.length) :
    ∃ out out', parseBytes Keyboard.boot bytes = .ok out ∧
      parseBytes (lastKeyboard Keyboard.boot out) further = .ok out' ∧
      ∃ k < 6, ∃ r, out'[k]? = some r ∧ r.2.parserState = .init := by
  have hboot : Keyboard.boot.InStep := trivial
  obtain ⟨out, hparse, hstep⟩ := parseBytes_inStep hboot bytes
  have hrest := (lastKeyboard Keyboard.boot out).rest_le
  obtain ⟨out', hparse', k, hk, hlast⟩ := parseBytes_meets_init hstep (hrest.trans hsix)
  exact ⟨out, out', hparse, hparse', k, hk.trans_le hrest, hlast⟩

/-- In the middle of the Pause key the six bytes of another Pause key come. -/
theorem parseBytes_synchronises_pause :
    6 ≤ ScanCode.pause.bytes.length ∧ ∃ out out', parseBytes Keyboard.boot [0xe1, 0x1d] = .ok out ∧
      parseBytes (lastKeyboard Keyboard.boot out) ScanCode.pause.bytes = .ok out' ∧
      ∃ k < 6, ∃ r, out'[k]? = some r ∧ r.2.parserState = .init :=
  ⟨by decide, parseBytes_synchronises [0xe1, 0x1d] (by decide)⟩

end Hobby386
