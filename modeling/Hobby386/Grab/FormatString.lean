import Hobby386.Grab.Compare
import Hobby386.Grab.Printf

/-!
# Format strings

The loop of `printf` turn by turn, with the place of `s` in the format string. Two of its states do
not move `s` on some characters, and `widbuf` has room for ten characters. The loop is the run of
`printf` over the characters, and it ends safely exactly for the formats whose widths fit.
-/

namespace Hobby386

open LittleEndian

/-! ## The loop -/

/-- A read of the format string, which ends behind its terminating 0. -/
def CString.at (s : CString) (i : ℕ) : Except Fault UInt8 :=
  if i ≤ s.bytes.length then .ok (s.bytes.getD i 0) else .error .outOfBounds

/-- A store through `widbuf_ptr`, which has to point into `widbuf`. -/
def Printf.storeWidbuf (st st' : Printf) : Except Fault Printf :=
  if st.widbuf.length < 10 then .ok st' else .error .outOfBounds

/-- One turn of the loop of `printf`, with `s` at place `i`. -/
def Printf.iteration (mem : Memory) (s : CString) (i : ℕ) (st : Printf) : Except Fault (ℕ × Printf) := do
  let c ← s.at i
  match st.state with
  | .regular => .ok (i + 1, if c = 37 then { st with state := .specifier } else
    { st with out := st.out ++ [c] })
  | .specifier =>
    if isdigit c = true then .ok (i, { st with widbuf := [], state := .widthSpecifier })
    else if c ≠ 0 then .ok (i, { st with widbuf := [], state := .typeSpecifier })
    else .ok (i, { st with widbuf := [] })
  | .widthSpecifier =>
    if isdigit c = true ∧ st.widbuf.length < 10 then do
      let st ← st.storeWidbuf { st with widbuf := st.widbuf ++ [c] }
      .ok (i + 1, st)
    else do
      let st ← st.storeWidbuf { st with state := .typeSpecifier }
      .ok (i, st)
  | .typeSpecifier => do
    let st ← st.onType mem c
    .ok (i + 1, st)

/-- The loop of `printf`. Within the given number of turns it ends, or not. -/
def Printf.loop (mem : Memory) (s : CString) : (turns i : ℕ) → Printf →
    Except Fault (Option (ℕ × Printf))
  | 0, i, st => do
    let c ← s.at i
    if c = 0 then .ok (some (i, st)) else .ok none
  | turns + 1, i, st => do
    let c ← s.at i
    if c = 0 then .ok (some (i, st))
    else do
      let r ← st.iteration mem s i
      loop mem s turns r.1 r.2

/-- `printf` reaches the terminating 0 of its format string, and no read and no store of its loop is
outside. -/
def FormatSafe (mem : Memory) (last : ℕ) (widbuf : List UInt8) (n : ℤ) (s : CString) : Prop :=
  ∃ turns st, Printf.loop mem s turns 0 ⟨.regular, widbuf, n, last + 4, [], []⟩ =
    .ok (some (s.bytes.length, st))

variable {mem : Memory} {s : CString}

/-- A text ends with its terminator. -/
theorem CString.at_end (s : CString) : s.at s.bytes.length = .ok 0 := by
  rw [CString.at, if_pos le_rfl, List.getD_eq_default _ _ le_rfl]

/-- Inside of the string a character is read. -/
theorem CString.at_drop {i : ℕ} {c : UInt8} {rest : List UInt8} (h : s.bytes.drop i = c :: rest) :
    s.at i = .ok c ∧ c ≠ 0 ∧ s.bytes.drop (i + 1) = rest := by
  have hlt : i < s.bytes.length := by
    by_contra hge
    rw [List.drop_eq_nil_of_le (not_lt.mp hge)] at h
    cases h
  rw [List.drop_eq_getElem_cons hlt] at h
  injection h with hc hrest
  refine ⟨?_, fun hzero => s.nulFree (hzero ▸ hc ▸ List.getElem_mem hlt), hrest⟩
  rw [CString.at, if_pos hlt.le, List.getD_eq_getElem _ _ hlt, hc]

/-! ## The loop and the run -/

/-- A turn or two turns move `s` on by one character, as `Printf.turn` has it. -/
theorem iteration_turn {i : ℕ} {c : UInt8} (hc : s.at i = .ok c) (hne : c ≠ 0) (st : Printf) :
    st.iteration mem s i = (st.turn mem c).map (i + 1, ·) ∨
    (∃ st', st.iteration mem s i = .ok (i, st') ∧ st'.iteration mem s i = (st.turn mem c).map
      (i + 1, ·)) ∨
    ∃ e, st.iteration mem s i = .error e ∧ st.turn mem c = .error e := by
  have htype : ∀ st : Printf, st.state = .typeSpecifier →
      st.iteration mem s i = (st.onType mem c).map (i + 1, ·) := by
    intro st hstate
    rw [Printf.iteration, hc, ok_bind, hstate]
    cases st.onType mem c <;> rfl
  cases hstate : st.state with
  | regular =>
    left
    rw [Printf.iteration, hc, ok_bind, hstate, Printf.turn, hstate]
    rfl
  | specifier =>
    right; left
    rw [Printf.turn, hstate, Printf.iteration, hc, ok_bind, hstate]
    dsimp only
    rw [Printf.onSpecifier]
    by_cases hdigit : isdigit c = true
    · rw [if_pos hdigit, if_pos hdigit]
      refine ⟨_, rfl, ?_⟩
      rw [Printf.iteration, hc, ok_bind, Printf.onWidth]
      dsimp only
      rw [if_pos ⟨hdigit, Nat.succ_pos 9⟩, if_pos ⟨hdigit, Nat.succ_pos 9⟩]
      rfl
    · rw [if_neg hdigit, if_neg hdigit, if_pos hne]
      exact ⟨_, rfl, htype _ rfl⟩
  | widthSpecifier =>
    rw [Printf.turn, hstate, Printf.iteration, hc, ok_bind, hstate]
    dsimp only
    rw [Printf.onWidth, Printf.storeWidbuf, Printf.storeWidbuf]
    by_cases hstore : isdigit c = true ∧ st.widbuf.length < 10
    · left
      rw [if_pos hstore, if_pos hstore, if_pos hstore.2, ← hstate]
      rfl
    · right
      rw [if_neg hstore, if_neg hstore]
      by_cases hroom : st.widbuf.length < 10
      · left
        rw [if_pos hroom, if_neg (not_le.mpr hroom)]
        exact ⟨_, rfl, htype _ rfl⟩
      · right
        rw [if_neg hroom, if_pos (not_lt.mp hroom)]
        exact ⟨_, rfl, rfl⟩
  | typeSpecifier =>
    left
    rw [htype st hstate, Printf.turn, hstate]

/-- Two turns for each character that is left are enough for the loop, which ends as the run does. -/
theorem loop_eq_run (mem : Memory) (rest : List UInt8) {turns i : ℕ} (st : Printf)
    (hrest : s.bytes.drop i = rest) (hi : i ≤ s.bytes.length) (hturns : 2 * rest.length ≤ turns) :
    Printf.loop mem s turns i st = (Printf.run mem rest st).map fun st => some (s.bytes.length, st) := by
  induction rest generalizing turns i st with
  | nil =>
    have hend : i = s.bytes.length := hi.antisymm (List.drop_eq_nil_iff.mp hrest)
    subst hend
    cases turns <;> rw [Printf.loop, s.at_end, ok_bind, if_pos rfl] <;> rfl
  | cons c rest ih =>
    obtain ⟨hc, hne, hnext⟩ := CString.at_drop hrest
    have hlength := congrArg List.length hnext
    rw [List.length_drop] at hlength
    have hi' : i + 1 ≤ s.bytes.length := by
      by_contra hge
      rw [List.drop_eq_nil_of_le (by omega)] at hrest
      cases hrest
    rw [List.length_cons] at hturns
    have hfirst : ∀ turns st, Printf.loop mem s (turns + 1) i st = (st.iteration mem s i >>= fun r =>
        Printf.loop mem s turns r.1 r.2) := by
      intro turns st
      rw [Printf.loop, hc, ok_bind, if_neg hne]
    have hmoved : ∀ turns, 2 * rest.length ≤ turns → (((st.turn mem c).map (i + 1, ·)) >>= fun r =>
        Printf.loop mem s turns r.1 r.2) =
        (Printf.run mem (c :: rest) st).map fun st => some (s.bytes.length, st) := by
      intro turns hturns
      rw [Printf.run]
      cases st.turn mem c with
      | error e => rfl
      | ok st' => exact ih st' hnext hi' hturns
    obtain ⟨turns, rfl⟩ := Nat.exists_eq_add_of_le' (show 2 ≤ turns by omega)
    rcases iteration_turn hc hne st with hone | ⟨st', hstay, htwo⟩ | ⟨e, hfault, hturn⟩
    · rw [hfirst, hone, hmoved _ (by omega)]
    · rw [hfirst, hstay, ok_bind, hfirst, htwo, hmoved _ (by omega)]
    · rw [hfirst, hfault, Printf.run, hturn]
      rfl

/-- A loop that has ended is not changed by more turns. -/
theorem loop_mono {turns turns' i : ℕ} {st : Printf} {r : ℕ × Printf}
    (h : Printf.loop mem s turns i st = .ok (some r)) (hle : turns ≤ turns') :
    Printf.loop mem s turns' i st = .ok (some r) := by
  induction turns generalizing turns' i st with
  | zero =>
    rw [Printf.loop, bind_eq_ok] at h
    obtain ⟨c, hc, h⟩ := h
    split at h
    · rename_i hzero
      cases turns' <;> rw [Printf.loop, hc, ok_bind, if_pos hzero, h]
    · cases h
  | succ turns ih =>
    obtain ⟨turns', rfl⟩ := Nat.exists_eq_add_of_le' hle
    rw [Printf.loop, bind_eq_ok] at h
    obtain ⟨c, hc, h⟩ := h
    rw [← Nat.add_assoc, Printf.loop, hc, ok_bind]
    split at h
    · rename_i hzero
      rw [if_pos hzero, h]
    · rename_i hne
      obtain ⟨r', hr', h⟩ := bind_eq_ok.mp h
      rw [if_neg hne, hr', ok_bind]
      exact ih h (Nat.le_add_left _ _)

/-- `printf` is safe exactly when its run over the characters has no fault. -/
theorem formatSafe_iff_run (mem : Memory) (last : ℕ) (widbuf : List UInt8) (n : ℤ) (s : CString) :
    FormatSafe mem last widbuf n s ↔ ∃ st, printf mem last widbuf n s.bytes = .ok st := by
  have hrun {turns : ℕ} (h : 2 * s.bytes.length ≤ turns) := loop_eq_run mem s.bytes
    ⟨.regular, widbuf, n, last + 4, [], []⟩ List.drop_zero (Nat.zero_le _) h
  rw [printf]
  constructor
  · rintro ⟨turns, st, h⟩
    have hmore := (hrun (le_max_right turns _)).symm.trans (loop_mono h (le_max_left _ _))
    cases hresult : Printf.run mem s.bytes ⟨.regular, widbuf, n, last + 4, [], []⟩ with
    | error e =>
      rw [hresult] at hmore
      cases hmore
    | ok st' => exact ⟨st', rfl⟩
  · rintro ⟨st, h⟩
    refine ⟨2 * s.bytes.length, st, ?_⟩
    rw [hrun le_rfl, h]
    rfl

/-! ## Specifiers -/

/-- The specifiers of a format: the digits behind a `'%'`, and the character behind them. -/
def specifiers : List UInt8 → List (List UInt8 × Option UInt8)
  | [] => []
  | c :: s =>
    if c = 37 then
      match _h : s.dropWhile isdigit with
      | [] => [(s.takeWhile isdigit, none)]
      | conv :: rest => (s.takeWhile isdigit, some conv) :: specifiers rest
    else specifiers s
termination_by s => s.length
decreasing_by
  · have hlength := (List.dropWhile_suffix isdigit (l := s)).length_le
    rw [_h, List.length_cons] at hlength
    rw [List.length_cons]
    omega
  · exact Nat.lt_succ_self _

/-- A format that ends behind the digits of a specifier. -/
theorem specifiers_end {ws : List UInt8} (hws : ∀ c ∈ ws, isdigit c = true) :
    specifiers (37 :: ws) = [(ws, none)] := by
  rw [specifiers, if_pos rfl, List.takeWhile_eq_self_iff.mpr hws]
  split
  · rfl
  · rename_i hcons
    rw [List.dropWhile_eq_nil_iff.mpr hws] at hcons
    cases hcons

/-- The first specifier of a format. -/
theorem specifiers_cons {ws : List UInt8} (hws : ∀ c ∈ ws, isdigit c = true) {conv : UInt8}
    (hconv : isdigit conv = false) (rest : List UInt8) :
    specifiers (37 :: (ws ++ conv :: rest)) = (ws, some conv) :: specifiers rest := by
  have hbehind : (ws ++ conv :: rest).dropWhile isdigit = conv :: rest := by
    rw [List.dropWhile_append_of_pos hws,
      List.dropWhile_cons_of_neg (by rw [hconv]; exact Bool.false_ne_true)]
  have hdigits : (ws ++ conv :: rest).takeWhile isdigit = ws := by
    rw [List.takeWhile_append_of_pos hws,
      List.takeWhile_cons_of_neg (by rw [hconv]; exact Bool.false_ne_true), List.append_nil]
  rw [specifiers, if_pos rfl]
  split
  · rename_i hnil
    rw [hbehind] at hnil
    cases hnil
  · rename_i hcons
    rw [hbehind] at hcons
    injection hcons with hc hr
    rw [← hc, ← hr, hdigits]

/-- The step of `va_arg` for a character behind a `'%'`. -/
def argSize (c : UInt8) : ℕ := if c = 99 then 1 else if c ∈ [115, 100, 117, 120, 112, 116] then 4 else 0

/-- Every width has at most nine digits, or ten at the end of the format, and the arguments of `%t`
are not negative. -/
def SpecifiersFit (mem : Memory) : List (List UInt8 × Option UInt8) → (ap : ℕ) → Prop
  | [], _ => True
  | (ws, none) :: specs, ap => ws.length ≤ 10 ∧ SpecifiersFit mem specs ap
  | (ws, some c) :: specs, ap =>
    ws.length ≤ 9 ∧ (c = 116 → 0 ≤ int32 (value mem 4 ap)) ∧ SpecifiersFit mem specs (ap + argSize c)

/-- A conversion fails for a negative argument of `%t` only, and it moves `ap` by the size of the
argument. -/
theorem convert_outcome (mem : Memory) (c : UInt8) (st : Printf) :
    if c = 116 ∧ int32 (value mem 4 st.ap) < 0 then st.convert mem c = .error .panic
    else ∃ st', st.convert mem c = .ok st' ∧ st'.ap = st.ap + argSize c ∧ st'.widbuf = st.widbuf := by
  by_cases hconv : ∃ cv : Conv, c = cv.char
  · obtain ⟨cv, rfl⟩ := hconv
    have hsize : cv.size = argSize cv.char := by cases cv <;> rfl
    rw [if_neg (by cases cv <;> simp [Conv.char])]
    exact ⟨_, convert_eq mem cv st, congrArg (st.ap + ·) hsize, rfl⟩
  · have hother : c ≠ 99 ∧ c ≠ 115 ∧ c ≠ 100 ∧ c ≠ 117 ∧ c ≠ 120 ∧ c ≠ 112 :=
      ⟨fun h => hconv ⟨.c, h⟩, fun h => hconv ⟨.s, h⟩, fun h => hconv ⟨.d, h⟩, fun h => hconv ⟨.u, h⟩,
        fun h => hconv ⟨.x, h⟩, fun h => hconv ⟨.p, h⟩⟩
    obtain ⟨h99, h115, h100, h117, h120, h112⟩ := hother
    rw [Printf.convert, if_neg h99, if_neg h115, if_neg h100, if_neg h117, if_neg h120, if_neg h112]
    by_cases h116 : c = 116
    · subst h116
      rw [if_pos rfl]
      dsimp only [Printf.vaArg]
      rw [printTwo]
      by_cases hneg : int32 (value mem 4 st.ap) < 0
      · rw [if_pos ⟨rfl, hneg⟩, if_pos hneg, error_bind]
      · rw [if_neg (fun h => hneg h.2), if_neg hneg]
        exact ⟨_, rfl, rfl, rfl⟩
    · rw [if_neg h116, if_neg (fun h => h116 h.1)]
      refine ⟨st, rfl, ?_, rfl⟩
      rw [argSize, if_neg h99, if_neg (by simp [h115, h100, h117, h120, h112, h116]), Nat.add_zero]

/-- Behind a width that fits, a conversion fails for a negative argument of `%t` only. -/
theorem onType_outcome (mem : Memory) (c : UInt8) (st : Printf) (hws : IsWidth st.widbuf) :
    if c = 116 ∧ int32 (value mem 4 st.ap) < 0 then st.onType mem c = .error .panic
    else ∃ st', st.onType mem c = .ok st' ∧ st'.ap = st.ap + argSize c ∧ st'.state = .regular := by
  have hconvert := convert_outcome mem c st
  rw [Printf.onType]
  split at hconvert
  · rename_i hneg
    rw [if_pos hneg, hconvert]
    rfl
  · rename_i hnonneg
    obtain ⟨st', hst', hap, hwidbuf⟩ := hconvert
    rw [if_neg hnonneg, hst', ok_bind, Printf.pad, hwidbuf]
    split
    · exact ⟨_, rfl, hap, rfl⟩
    · rw [str2uint_eq hws, ok_bind]
      exact ⟨_, rfl, hap, rfl⟩

/-- Behind ten stored digits there is no room, for a digit or for the terminating 0. -/
theorem turn_full {c : UInt8} {st : Printf} (hstate : st.state = .widthSpecifier)
    (hfull : st.widbuf.length = 10) :
    st.turn mem c = .error .outOfBounds := by
  rw [Printf.turn, hstate]
  dsimp only
  rw [Printf.onWidth, if_neg (by omega), if_pos (by omega)]

/-- What a specifier does: its digits are stored, and the character behind them is converted. -/
theorem run_specifier {ws : List UInt8} (hdigits : ∀ c ∈ ws, isdigit c = true) (hlength : ws.length ≤ 9)
    {c : UInt8} (hc : isdigit c = false) (st : Printf) (rest : List UInt8) :
    Printf.run mem (ws ++ c :: rest) { st with state := .specifier } =
      Printf.onType mem c { st with widbuf := ws, state := .typeSpecifier } >>= Printf.run mem rest := by
  cases ws with
  | nil =>
    have hturn : Printf.turn mem c { st with state := .specifier } =
        Printf.onType mem c { st with widbuf := [], state := .typeSpecifier } := by
      rw [Printf.turn]
      dsimp only
      rw [Printf.onSpecifier, if_neg (by rw [hc]; decide)]
    rw [List.nil_append, Printf.run, hturn]
  | cons d ws =>
    have hturn : Printf.turn mem c { st with widbuf := d :: ws, state := .widthSpecifier } =
        Printf.onType mem c { st with widbuf := d :: ws, state := .typeSpecifier } := by
      rw [Printf.turn]
      dsimp only
      rw [Printf.onWidth, if_neg (by rw [hc]; simp), if_neg (not_le.mpr (Nat.lt_succ_of_le hlength))]
    rw [run_digits mem hdigits (hlength.trans (Nat.le_succ 9)), Printf.run, hturn]

/-- A `'%'` begins a specifier. -/
theorem run_percent (mem : Memory) (st : Printf) (hstate : st.state = .regular) (s : List UInt8) :
    Printf.run mem (37 :: s) st = Printf.run mem s { st with state := .specifier } := by
  rw [Printf.run, Printf.turn, hstate]
  rfl

/-- Too many digits, or ten in front of another character, leave `widbuf`. -/
theorem run_overflow (mem : Memory) {ws : List UInt8} (hdigits : ∀ c ∈ ws, isdigit c = true)
    (st : Printf) (rest : List UInt8) (hlong : 10 < ws.length ∨ ws.length = 10 ∧ rest ≠ []) :
    Printf.run mem (ws ++ rest) { st with state := .specifier } = .error .outOfBounds := by
  have hbehind : ∃ c rest', ws.drop 10 ++ rest = c :: rest' := by
    refine List.exists_cons_of_ne_nil fun hnil => ?_
    rw [List.append_eq_nil_iff, List.drop_eq_nil_iff] at hnil
    rcases hlong with hlong | hlong
    · omega
    · exact hlong.2 hnil.2
  obtain ⟨c, rest', hbehind⟩ := hbehind
  have hten : (ws.take 10).length = 10 := List.length_take_of_le (by omega)
  obtain ⟨d, ds, htake⟩ : ∃ d ds, ws.take 10 = d :: ds := by
    refine List.exists_cons_of_ne_nil fun hnil => ?_
    rw [hnil] at hten
    cases hten
  have hdigits' : ∀ c ∈ d :: ds, isdigit c = true :=
    fun c hc => hdigits c (List.mem_of_mem_take (htake ▸ hc))
  have hsplit : ws ++ rest = d :: ds ++ c :: rest' := by
    rw [← htake, ← hbehind, ← List.append_assoc, List.take_append_drop]
  rw [htake] at hten
  rw [hsplit, run_digits mem hdigits' hten.le, Printf.run, turn_full rfl hten]
  rfl

/-- A run from outside of a specifier has no fault exactly when the specifiers fit. -/
theorem run_ok_iff (s : List UInt8) (st : Printf) (hstate : st.state = .regular) :
    (∃ st', Printf.run mem s st = .ok st') ↔ SpecifiersFit mem (specifiers s) st.ap := by
  induction s using specifiers.induct generalizing st with
  | case1 =>
    rw [specifiers]
    exact iff_of_true ⟨st, rfl⟩ trivial
  | case2 s hnil =>
    have hdigits : ∀ c ∈ s, isdigit c = true := List.dropWhile_eq_nil_iff.mp hnil
    rw [run_percent mem st hstate, specifiers_end hdigits, SpecifiersFit, SpecifiersFit, and_true]
    by_cases hlength : s.length ≤ 10
    · refine iff_of_true ?_ hlength
      cases s with
      | nil => exact ⟨_, rfl⟩
      | cons d ds =>
        have hrun := run_digits mem hdigits hlength st []
        rw [List.append_nil] at hrun
        exact ⟨_, hrun⟩
    · refine iff_of_false ?_ hlength
      have hrun := run_overflow mem hdigits st [] (.inl (not_le.mp hlength))
      rw [List.append_nil] at hrun
      rw [hrun]
      exact nofun
  | case3 s conv rest hrest ih =>
    have hsplit : s.takeWhile isdigit ++ conv :: rest = s := by
      rw [← hrest, List.takeWhile_append_dropWhile]
    have hdigits : ∀ c ∈ s.takeWhile isdigit, isdigit c = true := fun c hc => List.mem_takeWhile_imp hc
    have hconv : isdigit conv = false := by
      have hhead := List.head?_dropWhile_not isdigit s
      rw [hrest] at hhead
      simpa using hhead
    generalize s.takeWhile isdigit = ws at hsplit hdigits
    rw [run_percent mem st hstate, ← hsplit, specifiers_cons hdigits hconv, SpecifiersFit]
    by_cases hlength : ws.length ≤ 9
    · have houtcome := onType_outcome mem conv { st with widbuf := ws, state := .typeSpecifier }
        ⟨hdigits, hlength⟩
      rw [run_specifier hdigits hlength hconv, and_iff_right hlength]
      split at houtcome
      · rename_i hneg
        rw [houtcome]
        exact iff_of_false nofun fun h => absurd (h.1 hneg.1) (not_le.mpr hneg.2)
      · rename_i hnonneg
        obtain ⟨st', hst', hap, hregular⟩ := houtcome
        rw [hst', ok_bind, ih st' hregular, hap, and_iff_right fun h => not_lt.mp fun hneg =>
          hnonneg ⟨h, hneg⟩]
    · refine iff_of_false ?_ fun h => hlength h.1
      rw [run_overflow mem hdigits st (conv :: rest)
        ((Nat.lt_or_eq_of_le (not_le.mp hlength)).imp id fun h => ⟨h.symm, List.cons_ne_nil conv rest⟩)]
      exact nofun
  | case4 c s hc ih =>
    rw [specifiers, if_neg hc, run_lit hc st hstate]
    exact ih _ hstate

/-- `printf` is safe if and only if the specifiers of its format fit. -/
theorem formatSafe_iff (mem : Memory) (last : ℕ) (widbuf : List UInt8) (n : ℤ) (s : CString) :
    FormatSafe mem last widbuf n s ↔ SpecifiersFit mem (specifiers s.bytes) (last + 4) :=
  (formatSafe_iff_run mem last widbuf n s).trans (run_ok_iff s.bytes _ rfl)

/-- The format `%1234567890d`. -/
def tenDigits : CString := ⟨[37, 49, 50, 51, 52, 53, 54, 55, 56, 57, 48, 100], by decide⟩

/-- `printf("%1234567890d", 0)` stores the terminating 0 behind `widbuf`. -/
theorem not_formatSafe : printf (oneSlot 0) 0 [] 0 tenDigits.bytes = .error .outOfBounds ∧
    ¬FormatSafe (oneSlot 0) 0 [] 0 tenDigits := by
  have hrun : printf (oneSlot 0) 0 [] 0 tenDigits.bytes = .error .outOfBounds := by decide +kernel
  refine ⟨hrun, fun h => ?_⟩
  obtain ⟨st, hst⟩ := (formatSafe_iff_run _ _ _ _ _).mp h
  cases hrun.symm.trans hst

end Hobby386
