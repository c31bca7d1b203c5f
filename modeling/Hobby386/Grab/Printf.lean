import Hobby386.Grab.Shell
import Mathlib.Data.Nat.Digits.Defs

/-!
# printf

The state machine of `printf` over its format string. It takes its arguments from the memory behind
the address of its first parameter, and what it prints is the list of the characters that it passes
to `putchar`.
-/

namespace Hobby386

open LittleEndian

/-! ## The conversions -/

/-- `str2uint`, whose loop adds the digits with their powers of ten. -/
def addDigits : List UInt8 → (base x : ℕ) → ℕ
  | [], _, x => x
  | c :: s, base, x => addDigits s (base / 10) (u32 (x + (c.toNat - 48) * base))

/-- `str2uint`. -/
def str2uint (s : List UInt8) : Except Fault ℕ :=
  let ndigits := min s.length 10
  if ndigits = 10 ∧ strncmp [52, 50, 57, 52, 57, 54, 55, 50, 57, 53] s 10 < 0 then .error .panic
  else .ok (addDigits (s.take ndigits) (10 ^ (ndigits - 1)) 0)

/-- `digits`. -/
def hexDigits : List UInt8 := [48, 49, 50, 51, 52, 53, 54, 55, 56, 57, 97, 98, 99, 100, 101, 102]

/-- The loop of `_int` that stores the digits into `xx`, the last one first. -/
def storeDigits (base : ℕ) : (room abs : ℕ) → Except Fault (List UInt8)
  | _, 0 => .ok []
  | 0, _ + 1 => .error .outOfBounds
  | room + 1, abs + 1 => do
    let rest ← storeDigits base room ((abs + 1) / base)
    .ok (hexDigits.getD ((abs + 1) % base) 0 :: rest)

/-- `_int`: the characters that are printed, and the return value. -/
def printInt (x : ℕ) (sign : Bool) (base : ℕ) : Except Fault (List UInt8 × ℤ) :=
  if x = 0 then .ok ([48], 1)
  else do
    let abs :=
      if sign = false then x
      else if x = 0x80000000 then 0x80000000
      else if 0 < int32 x then x
      else u32 (0x100000000 - x)
    let xx ← storeDigits base 11 abs
    .ok ((if sign = true ∧ int32 x < 0 then [45] else []) ++ xx.reverse, xx.length)

/-- The loop of `_string`. -/
def stringAt (mem : Memory) : (room s : ℕ) → List UInt8
  | 0, _ => []
  | room + 1, s => if mem s = 0 then [] else mem s :: stringAt mem room (s + 1)

/-- `_string`: the characters that are printed, as many as the return value says. -/
def printString (mem : Memory) (s : ℕ) : List UInt8 := if s = 0 then [] else stringAt mem 1024 s

/-- `_two`. With the sign bit set its loop does not end. -/
def printTwo (x : ℕ) : Except Fault (List UInt8) :=
  if int32 x < 0 then .error .panic
  else .ok ((Nat.digits 2 x).map fun b => if b = 0 then 48 else 49)

/-! ## The state machine -/

/-- The states of `printf`. -/
inductive PrintfMode
  | specifier
  | regular
  | widthSpecifier
  | typeSpecifier
  deriving DecidableEq

/-- The variables of `printf`: the digits stored in `widbuf` so far, the characters passed to
`putchar`, and the addresses from which arguments have been read. -/
structure Printf where
  state : PrintfMode
  widbuf : List UInt8
  n : ℤ
  ap : ℕ
  out : List UInt8
  reads : List ℕ
  deriving DecidableEq

/-- `va_arg` for a type of some size. -/
def Printf.vaArg (st : Printf) (mem : Memory) (size : ℕ) : ℕ × Printf :=
  (value mem size st.ap, { st with ap := st.ap + size, reads := st.reads ++ [st.ap] })

/-- A conversion routine has printed characters, and `n` is its return value. -/
def Printf.emit (st : Printf) (r : List UInt8 × ℤ) : Printf := { st with out := st.out ++ r.1, n := r.2 }

/-- The switch of `TYPE_SPECIFIER`. -/
def Printf.convert (mem : Memory) (c : UInt8) (st : Printf) : Except Fault Printf :=
  if c = 99 then
    let a := st.vaArg mem 1
    .ok (a.2.emit ([.ofNat a.1], 1))
  else if c = 115 then
    let a := st.vaArg mem 4
    .ok (a.2.emit (printString mem a.1, (printString mem a.1).length))
  else if c = 100 then do
    let a := st.vaArg mem 4
    let r ← printInt a.1 true 10
    .ok (a.2.emit r)
  else if c = 117 then do
    let a := st.vaArg mem 4
    let r ← printInt a.1 false 10
    .ok (a.2.emit r)
  else if c = 120 then do
    let a := st.vaArg mem 4
    let r ← printInt a.1 false 16
    .ok (a.2.emit r)
  else if c = 112 then do
    let a := st.vaArg mem 4
    let r ← printInt a.1 false 16
    .ok (a.2.emit (48 :: 120 :: r.1, r.2 + 2))
  else if c = 116 then do
    let a := st.vaArg mem 4
    let r ← printTwo a.1
    .ok (a.2.emit (r, r.length))
  else .ok st

/-- The padding behind the field. -/
def Printf.pad (st : Printf) : Except Fault Printf :=
  if st.widbuf = [] then .ok st
  else do
    let wid ← str2uint st.widbuf
    .ok { st with out := st.out ++ List.replicate (int32 wid - st.n).toNat 32, widbuf := [] }

/-- The case `TYPE_SPECIFIER`. -/
def Printf.onType (mem : Memory) (c : UInt8) (st : Printf) : Except Fault Printf := do
  let st ← st.convert mem c
  let st ← st.pad
  .ok { st with state := .regular }

/-- The case `WIDTH_SPECIFIER`. A character that is not stored is left for the case `TYPE_SPECIFIER`. -/
def Printf.onWidth (mem : Memory) (c : UInt8) (st : Printf) : Except Fault Printf :=
  if isdigit c = true ∧ st.widbuf.length < 10 then .ok { st with widbuf := st.widbuf ++ [c] }
  else if 10 ≤ st.widbuf.length then .error .outOfBounds
  else Printf.onType mem c { st with state := .typeSpecifier }

/-- The case `SPECIFIER`. The character is left for one of the next two cases. -/
def Printf.onSpecifier (mem : Memory) (c : UInt8) (st : Printf) : Except Fault Printf :=
  if isdigit c = true then Printf.onWidth mem c { st with widbuf := [], state := .widthSpecifier }
  else Printf.onType mem c { st with widbuf := [], state := .typeSpecifier }

/-- The turns of the loop of `printf` up to the one that moves `s` on. -/
def Printf.turn (mem : Memory) (c : UInt8) (st : Printf) : Except Fault Printf :=
  match st.state with
  | .regular => .ok (if c = 37 then { st with state := .specifier } else
    { st with out := st.out ++ [c] })
  | .specifier => st.onSpecifier mem c
  | .widthSpecifier => st.onWidth mem c
  | .typeSpecifier => st.onType mem c

/-- The loop of `printf`. -/
def Printf.run (mem : Memory) : List UInt8 → Printf → Except Fault Printf
  | [], st => .ok st
  | c :: s, st => do
    let st ← st.turn mem c
    run mem s st

/-- `printf` with its first parameter at the address `last`. The variables in the body of the loop
are not initialised. -/
def printf (mem : Memory) (last : ℕ) (widbuf : List UInt8) (n : ℤ) (s : List UInt8) :
    Except Fault Printf :=
  Printf.run mem s ⟨.regular, widbuf, n, last + 4, [], []⟩

/-! ## Numbers -/

/-- The number that a string of digits denotes. -/
def decimal (s : List UInt8) : ℕ := Nat.ofDigits 10 (s.map fun c => c.toNat - 48).reverse

/-- A width: at most nine digits, none for a conversion without a width. -/
structure IsWidth (ws : List UInt8) : Prop where
  digits : ∀ c ∈ ws, isdigit c = true
  length : ws.length ≤ 9

/-- The value of a digit. -/
theorem digit_lt {c : UInt8} (h : isdigit c = true) : c.toNat - 48 < 10 := by
  rw [isdigit, Bool.and_eq_true, decide_eq_true_eq, decide_eq_true_eq, UInt8.le_iff_toNat_le,
    UInt8.le_iff_toNat_le] at h
  have hhigh : c.toNat ≤ 57 := h.2
  omega

/-- The value of a text of digits by its first digit. -/
theorem decimal_cons (c : UInt8) (s : List UInt8) :
    decimal (c :: s) = (c.toNat - 48) * 10 ^ s.length + decimal s := by
  rw [decimal, List.map_cons, List.reverse_cons, Nat.ofDigits_append, Nat.ofDigits_singleton,
    List.length_reverse, List.length_map, decimal]
  ring

/-- The value of a text of digits is bounded by its length. -/
theorem decimal_lt {s : List UInt8} (h : ∀ c ∈ s, isdigit c = true) : decimal s < 10 ^ s.length := by
  have hlt := Nat.ofDigits_lt_base_pow_length (b := 10) (l := (s.map fun c => c.toNat - 48).reverse)
    (by decide)
    fun d hd => by
      obtain ⟨c, hc, rfl⟩ := List.mem_map.mp (List.mem_reverse.mp hd)
      exact digit_lt (h c hc)
  rwa [List.length_reverse, List.length_map] at hlt

/-- The loop of `str2uint` adds the number that the digits denote. -/
theorem addDigits_eq (s : List UInt8) (x : ℕ) :
    u32 (addDigits s (10 ^ (s.length - 1)) x) = u32 (x + decimal s) := by
  induction s generalizing x with
  | nil => rfl
  | cons c s ih =>
    have hbase : 10 ^ ((c :: s).length - 1) / 10 = 10 ^ (s.length - 1) ∨ s = [] := by
      cases s with
      | nil => exact .inr rfl
      | cons d s =>
        left
        rw [List.length_cons, List.length_cons, Nat.add_sub_cancel, Nat.add_sub_cancel, pow_succ,
          Nat.mul_div_cancel _ (by decide)]
    rw [addDigits, decimal_cons]
    rcases hbase with hbase | rfl
    · rw [hbase, ih, List.length_cons, Nat.add_sub_cancel, ← Nat.add_assoc]
      simp only [u32]
      omega
    · simp only [addDigits, u32, List.length_singleton, List.length_nil, decimal, List.map_nil,
        List.reverse_nil, Nat.ofDigits_nil]
      omega

/-- An accumulated number stays in 32 bits. -/
theorem addDigits_lt (s : List UInt8) (base : ℕ) {x : ℕ} (h : x < 4294967296) :
    addDigits s base x < 4294967296 := by
  induction s generalizing base x with
  | nil => exact h
  | cons c s ih => exact ih _ (u32_lt _)

/-- `str2uint` gives the number that one to nine digits denote. -/
theorem str2uint_eq {ws : List UInt8} (h : IsWidth ws) : str2uint ws = .ok (decimal ws) := by
  have hlength := h.length
  have hlt : decimal ws < 10 ^ 9 :=
    (decimal_lt h.digits).trans_le (Nat.pow_le_pow_right (by decide) hlength)
  have hsum := addDigits_eq ws 0
  rw [u32_of_lt (addDigits_lt ws _ (by decide)), Nat.zero_add, u32_of_lt (by omega)] at hsum
  dsimp only [str2uint]
  rw [Nat.min_eq_left (by omega), if_neg (by omega), List.take_length, hsum]

/-- The digits of a number in a base, as `_int` prints them. -/
def digitText (base n : ℕ) : List UInt8 := ((Nat.digits base n).map fun d => hexDigits.getD d 0).reverse

/-- A number that fits into `xx` is stored there. -/
theorem storeDigits_eq {base : ℕ} (hbase : 1 < base) {room n : ℕ} (h : n < base ^ room) :
    storeDigits base room n = .ok (digitText base n).reverse := by
  rw [digitText, List.reverse_reverse]
  induction room generalizing n with
  | zero =>
    obtain rfl : n = 0 := by rwa [pow_zero, Nat.lt_one_iff] at h
    rw [storeDigits, Nat.digits_zero, List.map_nil]
  | succ room ih =>
    cases n with
    | zero => rw [storeDigits, Nat.digits_zero, List.map_nil]
    | succ n =>
      have hrest : (n + 1) / base < base ^ room := Nat.div_lt_of_lt_mul (by rwa [← pow_succ'])
      rw [storeDigits, ih hrest, ok_bind, Nat.digits_def' hbase n.succ_pos, List.map_cons]

/-- The absolute value of an integer is printed, or all of an unsigned number. -/
def magnitude (x : ℕ) (sign : Bool) : ℕ := if sign then (int32 x).natAbs else x

/-- What `_int` prints. -/
def intText (x : ℕ) (sign : Bool) (base : ℕ) : List UInt8 :=
  if x = 0 then [48] else (if sign = true ∧ int32 x < 0 then
    [45] else []) ++ digitText base (magnitude x sign)

/-- What `_int` returns: the number of digits. -/
def intCount (x : ℕ) (sign : Bool) (base : ℕ) : ℕ :=
  if x = 0 then 1 else (digitText base (magnitude x sign)).length

/-- The digits of every number fit into `xx`. -/
theorem printInt_eq {x base : ℕ} (hx : x < 4294967296) (sign : Bool) (hbase : 10 ≤ base) :
    printInt x sign base = .ok (intText x sign base, (intCount x sign base : ℤ)) := by
  rw [printInt, intText, intCount]
  split
  · rfl
  · rename_i hzero
    have habs : (if sign = false then x else if x = 0x80000000 then 0x80000000 else if 0 < int32 x then x
        else u32 (0x100000000 - x)) = magnitude x sign := by
      cases sign with
      | false => rfl
      | true =>
        simp only [magnitude, int32, u32]
        grind
    have hle : magnitude x sign ≤ x ∨ magnitude x sign ≤ 0x80000000 := by
      cases sign with
      | false => exact .inl le_rfl
      | true =>
        simp only [magnitude, int32]
        grind
    have hroom : magnitude x sign < base ^ 11 := by
      have hpow : 10 ^ 11 ≤ base ^ 11 := Nat.pow_le_pow_left hbase 11
      omega
    dsimp only
    rw [habs, storeDigits_eq (by omega) hroom, ok_bind, List.reverse_reverse, List.length_reverse]

/-- One more character is printed than is counted for a negative number. -/
theorem length_intText (x : ℕ) (sign : Bool) (base : ℕ) :
    (intText x sign base).length = intCount x sign base + if sign = true ∧ int32 x < 0 then
      1 else 0 := by
  rw [intText, intCount]
  by_cases hzero : x = 0
  · rw [if_pos hzero, if_pos hzero, if_neg (by subst hzero; simp [int32])]
    rfl
  · rw [if_neg hzero, if_neg hzero, List.length_append]
    split
    · rw [List.length_singleton, Nat.add_comm]
    · rw [List.length_nil, Nat.zero_add, Nat.add_zero]

/-! ## One conversion -/

/-- The conversions `%c`, `%s`, `%d`, `%u`, `%x` and `%p`. -/
inductive Conv
  | c
  | s
  | d
  | u
  | x
  | p
  deriving DecidableEq

namespace Conv

/-- The character of the conversion. -/
def char : Conv → UInt8
  | c => 99
  | s => 115
  | d => 100
  | u => 117
  | x => 120
  | p => 112

/-- The step of `va_arg` for the conversion. -/
def size : Conv → ℕ
  | c => 1
  | _ => 4

/-- What the conversion prints of an argument. -/
def text (mem : Memory) : Conv → ℕ → List UInt8
  | c, v => [.ofNat v]
  | s, v => printString mem v
  | d, v => intText v true 10
  | u, v => intText v false 10
  | x, v => intText v false 16
  | p, v => 48 :: 120 :: intText v false 16

/-- The number of characters that the conversion counts. -/
def count (mem : Memory) : Conv → ℕ → ℕ
  | c, _ => 1
  | s, v => (printString mem v).length
  | d, v => intCount v true 10
  | u, v => intCount v false 10
  | x, v => intCount v false 16
  | p, v => intCount v false 16 + 2

/-- A minus sign is not counted. -/
theorem length_text (mem : Memory) (cv : Conv) (v : ℕ) :
    (cv.text mem v).length = cv.count mem v + if cv = d ∧ int32 v < 0 then 1 else 0 := by
  cases cv <;> simp [text, count, length_intText]

/-- The characters of the conversions are no digits. -/
theorem not_isdigit_char (cv : Conv) : isdigit cv.char = false := by cases cv <;> rfl

end Conv

/-- The padding that `printf` computes for a field. -/
def padding (mem : Memory) (ws : List UInt8) (cv : Conv) (v : ℕ) : List UInt8 :=
  List.replicate (if ws = [] then 0 else decimal ws - cv.count mem v) 32

/-- What `printf` prints for a conversion. -/
def field (mem : Memory) (ws : List UInt8) (cv : Conv) (v : ℕ) : List UInt8 :=
  cv.text mem v ++ padding mem ws cv v

/-- The state after a conversion with the argument at `ap`. -/
def Printf.after (mem : Memory) (ws : List UInt8) (cv : Conv) (st : Printf) : Printf :=
  { st with
    widbuf := []
    n := cv.count mem (value mem 4 st.ap)
    ap := st.ap + cv.size
    out := st.out ++ field mem ws cv (value mem 4 st.ap)
    reads := st.reads ++ [st.ap] }

variable {mem : Memory} {ws : List UInt8}

/-- The first byte of a slot is the character that has been promoted. -/
theorem ofNat_value (mem : Memory) (ap : ℕ) :
    UInt8.ofNat (value mem 1 ap) = UInt8.ofNat (value mem 4 ap) := by
  apply UInt8.toNat.inj
  rw [UInt8.toNat_ofNat', UInt8.toNat_ofNat', value, value, value]
  omega

/-- The routine of a conversion. -/
theorem convert_eq (mem : Memory) (cv : Conv) (st : Printf) : st.convert mem cv.char = .ok
    { st with
      n := cv.count mem (value mem 4 st.ap)
      ap := st.ap + cv.size
      out := st.out ++ cv.text mem (value mem 4 st.ap)
      reads := st.reads ++ [st.ap] } := by
  have hslot : value mem 4 st.ap < 4294967296 := value_lt mem 4 st.ap
  cases cv with
  | c =>
    simp [Printf.convert, Conv.char, Printf.vaArg, Printf.emit, Conv.text, Conv.count, Conv.size,
      ofNat_value]
  | s => simp [Printf.convert, Conv.char, Printf.vaArg, Printf.emit, Conv.text, Conv.count, Conv.size]
  | d =>
    simp [Printf.convert, Conv.char, Printf.vaArg, Printf.emit, Conv.text, Conv.count, Conv.size,
      printInt_eq hslot]
  | u =>
    simp [Printf.convert, Conv.char, Printf.vaArg, Printf.emit, Conv.text, Conv.count, Conv.size,
      printInt_eq hslot]
  | x =>
    simp [Printf.convert, Conv.char, Printf.vaArg, Printf.emit, Conv.text, Conv.count, Conv.size,
      printInt_eq hslot]
  | p =>
    simp [Printf.convert, Conv.char, Printf.vaArg, Printf.emit, Conv.text, Conv.count, Conv.size,
      printInt_eq hslot]

/-- The case `TYPE_SPECIFIER` behind a width. -/
theorem onType_eq (h : IsWidth ws) (cv : Conv) {st : Printf} (hws : st.widbuf = ws) :
    st.onType mem cv.char = .ok { st.after mem ws cv with state := .regular } := by
  rw [Printf.onType, convert_eq, ok_bind, Printf.pad, Printf.after, field, padding]
  dsimp only
  rw [hws]
  split
  · rename_i hnone
    rw [ok_bind, hnone]
    simp
  · have hlt : decimal ws < 10 ^ 9 :=
      (decimal_lt h.digits).trans_le (Nat.pow_le_pow_right (by decide) h.length)
    rw [str2uint_eq h, ok_bind, ok_bind, int32_of_lt (by omega)]
    simp

/-- The digits of a width are stored. -/
theorem run_width (hdigits : ∀ c ∈ ws, isdigit c = true) (st : Printf)
    (hstate : st.state = .widthSpecifier) (hroom : st.widbuf.length + ws.length ≤ 10)
    (rest : List UInt8) :
    Printf.run mem (ws ++ rest) st = Printf.run mem rest { st with widbuf := st.widbuf ++ ws } := by
  induction ws generalizing st with
  | nil => rw [List.nil_append, List.append_nil]
  | cons c ws ih =>
    rw [List.forall_mem_cons] at hdigits
    rw [List.length_cons] at hroom
    have hturn : st.turn mem c = .ok { st with widbuf := st.widbuf ++ [c] } := by
      have hwidth : st.turn mem c = st.onWidth mem c := by rw [Printf.turn, hstate]
      rw [hwidth, Printf.onWidth, if_pos ⟨hdigits.1, by omega⟩]
    have hlength : (st.widbuf ++ [c]).length + ws.length ≤ 10 := by
      rw [List.length_append, List.length_singleton]
      omega
    rw [List.cons_append, Printf.run, hturn, ok_bind,
      ih hdigits.2 { st with widbuf := st.widbuf ++ [c] } hstate hlength]
    simp only [List.append_assoc, List.singleton_append]

/-- The digits behind a `'%'` are stored. -/
theorem run_digits (mem : Memory) {d : UInt8} (hdigits : ∀ c ∈ d :: ws, isdigit c = true)
    (hlength : (d :: ws).length ≤ 10) (st : Printf) (rest : List UInt8) :
    Printf.run mem (d :: ws ++ rest) { st with state := .specifier } =
      Printf.run mem rest { st with widbuf := d :: ws, state := .widthSpecifier } := by
  have hfirst : Printf.turn mem d { st with state := .specifier } =
      .ok { st with widbuf := [d], state := .widthSpecifier } := by
    rw [Printf.turn]
    dsimp only
    rw [Printf.onSpecifier, if_pos (hdigits d List.mem_cons_self), Printf.onWidth,
      if_pos ⟨hdigits d List.mem_cons_self, Nat.succ_pos 9⟩]
    rfl
  rw [List.length_cons] at hlength
  rw [List.cons_append, Printf.run, hfirst, ok_bind,
    run_width (List.forall_mem_cons.mp hdigits).2 { st with widbuf := [d], state := .widthSpecifier } rfl
      (by simp; omega), List.singleton_append]

/-- A conversion of the format string. -/
theorem run_conv (h : IsWidth ws) (cv : Conv) (st : Printf) (hstate : st.state = .regular)
    (rest : List UInt8) :
    Printf.run mem (37 :: (ws ++ cv.char :: rest)) st = Printf.run mem rest (st.after mem ws cv) := by
  have hpercent : st.turn mem 37 = .ok { st with state := .specifier } := by
    rw [Printf.turn, hstate]
    rfl
  have hafter : ∀ state,
      { Printf.after mem ws cv { st with widbuf := ws, state := state } with state := .regular } =
        st.after mem ws cv := by
    intro state
    simp only [Printf.after, hstate]
  rw [Printf.run, hpercent, ok_bind]
  cases ws with
  | nil =>
    have hturn : Printf.turn mem cv.char { st with state := .specifier } =
        Printf.onType mem cv.char { st with widbuf := [], state := .typeSpecifier } := by
      rw [Printf.turn]
      dsimp only
      rw [Printf.onSpecifier, if_neg (by rw [cv.not_isdigit_char]; decide)]
    rw [List.nil_append, Printf.run, hturn, onType_eq h cv rfl, ok_bind, hafter]
  | cons d ds =>
    have hlength := h.length
    rw [List.length_cons] at hlength
    have hturn : Printf.turn mem cv.char { st with widbuf := d :: ds, state := .widthSpecifier } =
        Printf.onType mem cv.char { st with widbuf := d :: ds, state := .typeSpecifier } := by
      rw [Printf.turn]
      dsimp only
      rw [Printf.onWidth, if_neg (by rw [cv.not_isdigit_char]; simp), if_neg (by simp; omega)]
    rw [run_digits mem h.digits (h.length.trans (Nat.le_succ 9)), Printf.run, hturn,
      onType_eq h cv rfl, ok_bind, hafter]

/-- Any other character of the format string than `'%'` is printed. -/
theorem run_lit {c : UInt8} (hc : c ≠ 37) (st : Printf) (hstate : st.state = .regular)
    (rest : List UInt8) :
    Printf.run mem (c :: rest) st = Printf.run mem rest { st with out := st.out ++ [c] } := by
  have hturn : st.turn mem c = .ok { st with out := st.out ++ [c] } := by
    rw [Printf.turn, hstate]
    dsimp only
    rw [if_neg hc]
  rw [Printf.run, hturn, ok_bind]

/-! ## Fields of a fixed width -/

/-- The field of a conversion with a width is what the conversion prints without one, filled up with
blanks to the width. -/
def FixedWidth (mem : Memory) (last : ℕ) (widbuf : List UInt8) (n : ℤ) (ws : List UInt8)
    (cv : Conv) : Prop :=
  ∃ plain wide, printf mem last widbuf n [37, cv.char] = .ok plain ∧
    printf mem last widbuf n (37 :: (ws ++ [cv.char])) = .ok wide ∧
    wide.out.length = max (decimal ws) plain.out.length ∧
    ∃ k, wide.out = plain.out ++ List.replicate k 32

/-- The number of digits that a conversion counts for a negative number. -/
theorem count_d (mem : Memory) {v : ℕ} (h : int32 v < 0) :
    Conv.d.count mem v = (Nat.digits 10 (int32 v).natAbs).length := by
  have hzero : v ≠ 0 := by
    rintro rfl
    exact absurd h (by decide)
  rw [Conv.count, intCount, if_neg hzero, digitText, List.length_reverse, List.length_map,
    magnitude, if_pos rfl]

/-- The characters of a field. -/
theorem length_field (mem : Memory) (hsome : ws ≠ []) (cv : Conv) (v : ℕ) :
    (field mem ws cv v).length = max (decimal ws) (cv.text mem v).length ↔
      ¬(cv = .d ∧ int32 v < 0 ∧ (Nat.digits 10 (int32 v).natAbs).length < decimal ws) := by
  have hlength := cv.length_text mem v
  rw [field, padding, if_neg hsome, List.length_append, List.length_replicate]
  by_cases hminus : cv = .d ∧ int32 v < 0
  · obtain ⟨rfl, hneg⟩ := hminus
    have hcount := count_d mem hneg
    rw [if_pos ⟨rfl, hneg⟩] at hlength
    simp only [hneg, true_and]
    omega
  · rw [if_neg hminus] at hlength
    refine iff_of_true (by omega) fun h => hminus ⟨h.1, h.2.1⟩

/-- The field of a conversion with a width is as wide as it should be, unless it is that of a
negative number whose digits alone are fewer than the width. -/
theorem printf_fixedWidth_iff (mem : Memory) (last : ℕ) (widbuf : List UInt8) (n : ℤ) (hws : IsWidth ws)
    (hsome : ws ≠ []) (cv : Conv) :
    FixedWidth mem last widbuf n ws cv ↔
      ¬(cv = .d ∧ int32 (value mem 4 (last + 4)) < 0 ∧
        (Nat.digits 10 (int32 (value mem 4 (last + 4))).natAbs).length < decimal ws) := by
  have hnone : IsWidth [] := ⟨by simp, by simp⟩
  have hplain : printf mem last widbuf n [37, cv.char] = .ok _ := run_conv hnone cv _ rfl []
  have hwide : printf mem last widbuf n (37 :: (ws ++ [cv.char])) = .ok _ := run_conv hws cv _ rfl []
  have hplainOut : field mem [] cv (value mem 4 (last + 4)) = cv.text mem (value mem 4 (last + 4)) := by
    rw [field, padding, if_pos rfl, List.replicate_zero, List.append_nil]
  rw [← length_field mem hsome]
  constructor
  · rintro ⟨plain, wide, hplain', hwide', hlength, -⟩
    rw [hplain] at hplain'
    rw [hwide] at hwide'
    cases hplain'
    cases hwide'
    simpa only [Printf.after, List.nil_append, hplainOut] using hlength
  · intro hlength
    refine ⟨_, _, hplain, hwide, ?_, decimal ws - cv.count mem (value mem 4 (last + 4)), ?_⟩
    · simpa only [Printf.after, List.nil_append, hplainOut] using hlength
    · simp only [Printf.after, List.nil_append, hplainOut]
      rw [field, padding, if_neg hsome]

/-- A memory with a slot that holds a number. -/
def oneSlot (v : ℕ) : Memory := fun i => byte v (i - 4)

/-- The characterisation for a blank-padded hexadecimal number. -/
theorem printf_fixedWidth_iff_hex : IsWidth [49, 50] ∧
    (FixedWidth (oneSlot 255) 0 [] 0 [49, 50] .x ↔
      ¬(Conv.x = .d ∧ int32 (value (oneSlot 255) 4 (0 + 4)) < 0 ∧
        (Nat.digits 10 (int32 (value (oneSlot 255) 4 (0 + 4))).natAbs).length < decimal [49, 50])) := by
  have hws : IsWidth [49, 50] := ⟨by simp [isdigit], by decide⟩
  exact ⟨hws, printf_fixedWidth_iff (oneSlot 255) 0 [] 0 hws (by decide) .x⟩

/-- `printf("%4d", -5)` prints five characters. -/
theorem not_printf_fixedWidth :
    (printf (oneSlot 0xfffffffb) 0 [] 0 [37, 100]).map Printf.out = .ok [45, 53] ∧
    (printf (oneSlot 0xfffffffb) 0 [] 0 [37, 52, 100]).map Printf.out = .ok [45, 53, 32, 32, 32] ∧
    ¬FixedWidth (oneSlot 0xfffffffb) 0 [] 0 [52] .d := by
  have hplain : (printf (oneSlot 0xfffffffb) 0 [] 0 [37, 100]).map Printf.out = .ok [45, 53] := by
    decide +kernel
  have hwide : (printf (oneSlot 0xfffffffb) 0 [] 0 [37, 52, 100]).map Printf.out =
      .ok [45, 53, 32, 32, 32] := by
    decide +kernel
  refine ⟨hplain, hwide, ?_⟩
  rintro ⟨plain, wide, hplain', hwide', hlength, -⟩
  have hplain' : printf (oneSlot 0xfffffffb) 0 [] 0 [37, 100] = .ok plain := hplain'
  have hwide' : printf (oneSlot 0xfffffffb) 0 [] 0 [37, 52, 100] = .ok wide := hwide'
  rw [hplain', Except.map] at hplain
  rw [hwide', Except.map] at hwide
  injection hplain with hplain
  injection hwide with hwide
  rw [hplain, hwide] at hlength
  exact absurd hlength (by decide +kernel)

end Hobby386
