import Hobby386.Grab.Compare
import Hobby386.Grab.Printf
import Mathlib.Data.Nat.Digits.Lemmas

/-!
# Numerals

`str2uint` reads a decimal number, `_int` prints a number in a base, and `_two` prints its binary digits.
-/

namespace Hobby386

/-! ## `str2uint` -/

/-- `str2uint` does not return a wrong number, and returns the number of a string of at most ten
digits below 2^32. -/
structure NumberOrFails (s : List UInt8) : Prop where
  right : ∀ x, str2uint s = .ok x → x = decimal s
  returns : s.length ≤ 10 → decimal s < 4294967296 → ∃ x, str2uint s = .ok x

/-- The greatest number that `str2uint` accepts, as the string it compares with. -/
def maxDigits : List UInt8 := [52, 50, 57, 52, 57, 54, 55, 50, 57, 53]

/-- The codes of the digits. -/
theorem isdigit_range {c : UInt8} (h : isdigit c = true) : 48 ≤ c.toNat ∧ c.toNat ≤ 57 := by
  rw [isdigit, Bool.and_eq_true, decide_eq_true_eq, decide_eq_true_eq, UInt8.le_iff_toNat_le,
    UInt8.le_iff_toNat_le] at h
  exact h

/-- Digits are characters with a positive value. -/
theorem digit_char {c : UInt8} (h : isdigit c = true) : c.toInt8.toInt = c.toNat := by
  have hrange := isdigit_range h
  have hsmall : 2 * c.toInt8.toBitVec.toNat < 2 ^ 8 := by
    rw [UInt8.toBitVec_toInt8, UInt8.toNat_toBitVec]
    omega
  exact BitVec.toInt_eq_toNat_of_lt hsmall

/-- A leading digit counts more than the digits behind it. -/
theorem lead_lt_iff {a b d e N : ℕ} (hd : d < N) (he : e < N) :
    a * N + d < b * N + e ↔ a < b ∨ a = b ∧ d < e := by
  rcases Nat.lt_trichotomy a b with hlt | rfl | hgt
  · have hmul : (a + 1) * N ≤ b * N := Nat.mul_le_mul_right N hlt
    rw [Nat.add_one_mul] at hmul
    exact iff_of_true (by omega) (.inl hlt)
  · simp
  · have hmul : (b + 1) * N ≤ a * N := Nat.mul_le_mul_right N hgt
    rw [Nat.add_one_mul] at hmul
    exact iff_of_false (by omega) (by omega)

/-- A proper prefix is smaller. -/
theorem lt_append_cons (s : List ℤ) (c : ℤ) (r : List ℤ) : s < s ++ c :: r := by
  induction s with
  | nil => exact List.nil_lt_cons c r
  | cons x s ih => exact List.cons_lt_cons_iff.mpr (.inr ⟨rfl, ih⟩)

/-- Digit strings of one length are ordered like the numbers they denote. -/
theorem chars_lt_iff_decimal_lt {s t : List UInt8} (hlength : s.length = t.length)
    (hs : ∀ c ∈ s, isdigit c = true) (ht : ∀ c ∈ t, isdigit c = true) :
    chars s < chars t ↔ decimal s < decimal t := by
  induction s generalizing t with
  | nil =>
    obtain rfl : t = [] := List.length_eq_zero_iff.mp hlength.symm
    simp
  | cons x s ih =>
    cases t with
    | nil => cases hlength
    | cons y t =>
      rw [List.length_cons, List.length_cons, Nat.add_right_cancel_iff] at hlength
      rw [List.forall_mem_cons] at hs ht
      have hx := isdigit_range hs.1
      have hy := isdigit_range ht.1
      have htail := decimal_lt ht.2
      rw [← hlength] at htail
      rw [decimal_cons, decimal_cons, ← hlength, lead_lt_iff (decimal_lt hs.2) htail,
        ← ih hlength hs.2 ht.2]
      simp only [chars, List.map_cons, List.cons_lt_cons_iff, digit_char hs.1, digit_char ht.1]
      refine or_congr (by omega) (and_congr_left fun _ => by omega)

/-- The value of a text of digits, read in two parts. -/
theorem decimal_append (s t : List UInt8) :
    decimal (s ++ t) = decimal s * 10 ^ t.length + decimal t := by
  induction s with
  | nil => simp [decimal]
  | cons c s ih =>
    rw [List.cons_append, decimal_cons, decimal_cons, ih, List.length_append, pow_add]
    ring

/-- With ten digits or more `str2uint` returns the number of the first ten, or fails. -/
theorem str2uint_long {s : List UInt8} (hlength : 10 ≤ s.length) (hdigits : ∀ c ∈ s, isdigit c = true) :
    str2uint s = if decimal (s.take 10) < 4294967295 ∨ decimal (s.take 10) = 4294967295 ∧
      s.length = 10 then
      .ok (decimal (s.take 10)) else .error .panic := by
  have hfree : 0 ∉ s := fun h => by cases hdigits 0 h
  have htake : (s.take 10).length = 10 := List.length_take_of_le hlength
  have hdigits' : ∀ c ∈ s.take 10, isdigit c = true := fun c hc => hdigits c (List.mem_of_mem_take hc)
  have hmax : maxDigits.length = 10 ∧ decimal maxDigits = 4294967295 ∧
      ∀ c ∈ maxDigits, isdigit c = true :=
    ⟨rfl, by decide, by simp [maxDigits, isdigit]⟩
  have hmaxTake : maxDigits.take 10 = maxDigits := rfl
  have hcheck : strncmp maxDigits s 10 < 0 ↔
      ¬(decimal (s.take 10) < 4294967295 ∨ decimal (s.take 10) = 4294967295 ∧ s.length = 10) := by
    rw [strncmp, if_pos (by decide), strcmp_neg_iff (by decide) hfree]
    by_cases hsame : s.take 10 = maxDigits
    · have hsplit : s = maxDigits ++ s.drop 10 := by rw [← hsame, List.take_append_drop]
      have hlonger : chars maxDigits < chars s ↔ s.length ≠ 10 := by
        rw [hsplit, chars, chars, List.map_append, List.length_append, hmax.1, ne_eq, Nat.add_eq_left,
          List.length_eq_zero_iff]
        cases s.drop 10 with
        | nil => simp
        | cons c r => exact iff_of_true (lt_append_cons _ _ _) (List.cons_ne_nil c r)
      rw [hlonger, hsame, hmax.2.1]
      simp
    · have hne : (chars maxDigits).take 10 ≠ (chars s).take 10 := by
        rw [← chars_take, ← chars_take]
        exact fun heq => hsame (chars_injective heq).symm
      have hvalue : decimal (s.take 10) ≠ 4294967295 := by
        intro heq
        have hnlt := (chars_lt_iff_decimal_lt (htake.trans hmax.1.symm) hdigits' hmax.2.2).not.mpr
          (by omega)
        have hngt := (chars_lt_iff_decimal_lt (hmax.1.trans htake.symm) hmax.2.2 hdigits').not.mpr
          (by omega)
        exact hsame (chars_injective (le_antisymm (not_lt.mp hngt) (not_lt.mp hnlt)))
      rw [lt_iff_take_lt hne, ← chars_take, ← chars_take, hmaxTake,
        chars_lt_iff_decimal_lt (hmax.1.trans htake.symm) hmax.2.2 hdigits']
      omega
  have hsum := addDigits_eq (s.take 10) 0
  rw [u32_of_lt (addDigits_lt _ _ (by decide)), Nat.zero_add, htake] at hsum
  rw [str2uint]
  simp only [Nat.min_eq_right hlength, true_and]
  rw [show ([52, 50, 57, 52, 57, 54, 55, 50, 57, 53] : List UInt8) = maxDigits from rfl]
  by_cases hok : decimal (s.take 10) < 4294967295 ∨ decimal (s.take 10) = 4294967295 ∧ s.length = 10
  · rw [if_neg (hcheck.not.mpr (not_not_intro hok)), if_pos hok, hsum, u32_of_lt (by omega)]
  · rw [if_pos (hcheck.mpr hok), if_neg hok]

/-- `str2uint` never returns a wrong number if and only if the string has at most ten digits, the
first ten fail its check, or all digits are 0. -/
theorem str2uint_iff {s : List UInt8} (_hne : s ≠ []) (hdigits : ∀ c ∈ s, isdigit c = true) :
    NumberOrFails s ↔ s.length ≤ 10 ∨ 4294967295 ≤ decimal (s.take 10) ∨ decimal s = 0 := by
  rcases Nat.lt_or_ge s.length 10 with hshort | hlong
  · have hvalue := str2uint_eq ⟨hdigits, Nat.le_of_lt_succ hshort⟩
    refine iff_of_true ⟨fun x hx => ?_, fun _ _ => ⟨_, hvalue⟩⟩ (.inl hshort.le)
    rw [hvalue] at hx
    exact (Except.ok.inj hx).symm
  have hvalue := str2uint_long hlong hdigits
  have hsplit : decimal s = decimal (s.take 10) * 10 ^ (s.drop 10).length + decimal (s.drop 10) := by
    rw [← decimal_append, List.take_append_drop]
  rcases Nat.eq_or_lt_of_le hlong with hten | hmore
  · have htake : s.take 10 = s := List.take_of_length_le hten.ge
    rw [htake] at hvalue
    refine iff_of_true ⟨fun x hx => ?_, fun _ hlt => ⟨_, hvalue.trans (if_pos (by omega))⟩⟩
      (.inl hten.ge)
    rw [hvalue] at hx
    split at hx
    · exact (Except.ok.inj hx).symm
    · cases hx
  · rw [or_iff_right (Nat.not_le.mpr hmore)]
    have hreturns : s.length ≤ 10 → decimal s < 4294967296 → ∃ x, str2uint s = .ok x :=
      fun h => absurd h (Nat.not_le.mpr hmore)
    by_cases hfail : 4294967295 ≤ decimal (s.take 10)
    · refine iff_of_true ⟨fun x hx => ?_, hreturns⟩ (.inl hfail)
      rw [hvalue, if_neg (by omega)] at hx
      cases hx
    · rw [or_iff_right hfail]
      rw [if_pos (.inl (Nat.not_le.mp hfail))] at hvalue
      have hfactor : 10 ≤ 10 ^ (s.drop 10).length := by
        have hpos : (s.drop 10).length ≠ 0 := by
          rw [List.length_drop]
          omega
        exact Nat.le_self_pow hpos 10
      have hmul : decimal (s.take 10) * 10 ≤ decimal (s.take 10) * 10 ^ (s.drop 10).length :=
        Nat.mul_le_mul_left _ hfactor
      constructor
      · intro h
        have hright := h.right _ hvalue
        omega
      · exact fun hzero => ⟨fun x hx => by rw [hvalue] at hx; have := Except.ok.inj hx; omega, hreturns⟩

/-- The characterisation for `007`. -/
theorem str2uint_iff_leadingZeros : ([48, 48, 55] : List UInt8) ≠ [] ∧
    (∀ c ∈ [48, 48, 55], isdigit c = true) ∧
    (NumberOrFails [48, 48, 55] ↔ ([48, 48, 55] : List UInt8).length ≤ 10 ∨
      4294967295 ≤ decimal (([48, 48, 55] : List UInt8).take 10) ∨ decimal [48, 48, 55] = 0) := by
  have hdigits : ∀ c ∈ [48, 48, 55], isdigit c = true := by simp [isdigit]
  exact ⟨by decide, hdigits, str2uint_iff (by decide) hdigits⟩

/-- `str2uint("10000000000")` returns 1000000000. -/
theorem not_str2uint_number : str2uint [49, 48, 48, 48, 48, 48, 48, 48, 48, 48, 48] = .ok 1000000000 ∧
    decimal [49, 48, 48, 48, 48, 48, 48, 48, 48, 48, 48] = 10000000000 ∧
    ¬NumberOrFails [49, 48, 48, 48, 48, 48, 48, 48, 48, 48, 48] := by
  have hvalue : str2uint [49, 48, 48, 48, 48, 48, 48, 48, 48, 48, 48] = .ok 1000000000 := by
    decide +kernel
  have hdecimal : decimal [49, 48, 48, 48, 48, 48, 48, 48, 48, 48, 48] = 10000000000 := by decide +kernel
  refine ⟨hvalue, hdecimal, fun h => ?_⟩
  have hright := h.right _ hvalue
  rw [hdecimal] at hright
  omega

/-! ## `_int` -/

/-- The value of a digit. -/
def digitValue (c : UInt8) : ℕ := hexDigits.idxOf c

/-- The number that digits denote in a base, the first one being the greatest. -/
def readDigits (base : ℕ) (s : List UInt8) : ℕ := Nat.ofDigits base (s.map digitValue).reverse

/-- The integer that a numeral denotes, with a sign or without. -/
def readInt (base : ℕ) : List UInt8 → ℤ
  | 45 :: s => -readDigits base s
  | s => readDigits base s

/-- The numeral of a number in a base, without leading zeros. -/
structure IsNumeral (base n : ℕ) (s : List UInt8) : Prop where
  digits : ∀ c ∈ s, c ∈ hexDigits.take base
  lead : s ≠ [] ∧ (s.head? = some 48 → s = [48])
  value : readDigits base s = n

/-- A hexadecimal digit has its index as value. -/
theorem digitValue_getD {d : ℕ} (h : d < 16) : digitValue (hexDigits.getD d 0) = d := by
  interval_cases d <;> rfl

/-- The digits below a base are the characters of its numerals. -/
theorem getD_mem_take {base d : ℕ} (hbase : base ≤ 16) (h : d < base) :
    hexDigits.getD d 0 ∈ hexDigits.take base := by
  have hlength : d < hexDigits.length := h.trans_le hbase
  rw [List.getD_eq_getElem _ _ hlength]
  exact List.mem_take_iff_getElem.mpr ⟨d, lt_min h hlength, rfl⟩

/-- The values of printed digits are the digits. -/
theorem map_digitValue {base : ℕ} (hbase : base ≤ 16) (ds : List ℕ) (h : ∀ d ∈ ds, d < base) :
    (ds.map fun d => hexDigits.getD d 0).map digitValue = ds := by
  have hself : ∀ d ∈ ds, (digitValue ∘ fun d => hexDigits.getD d 0) d = id d :=
    fun d hd => digitValue_getD ((h d hd).trans_le hbase)
  rw [List.map_map, List.map_congr_left hself, List.map_id]

/-- The digits of a positive number are its numeral. -/
theorem isNumeral_digitText {base n : ℕ} (hlow : 1 < base) (hhigh : base ≤ 16) (hn : n ≠ 0) :
    IsNumeral base n (digitText base n) := by
  have hdigits : ∀ d ∈ Nat.digits base n, d < base := fun d hd => Nat.digits_lt_base hlow hd
  have hne : Nat.digits base n ≠ [] := Nat.digits_ne_nil_iff_ne_zero.mpr hn
  refine ⟨fun c hc => ?_, ?_, ?_⟩
  · obtain ⟨d, hd, rfl⟩ := List.mem_map.mp (List.mem_reverse.mp hc)
    exact getD_mem_take hhigh (hdigits d hd)
  · have hlast : (digitText base n).head? =
        some (hexDigits.getD ((Nat.digits base n).getLast hne) 0) := by
      rw [digitText, List.head?_reverse, List.getLast?_map, List.getLast?_eq_getLast_of_ne_nil hne,
        Option.map_some]
    have hnonzero := Nat.getLast_digit_ne_zero base hn
    have hsmall := (hdigits _ (List.getLast_mem hne)).trans_le hhigh
    refine ⟨fun hnil => by simp [hnil] at hlast, fun hzero => absurd ?_ hnonzero⟩
    rw [hlast, Option.some_inj] at hzero
    rw [← digitValue_getD hsmall, hzero]
    rfl
  · rw [readDigits, digitText, List.map_reverse, List.reverse_reverse, map_digitValue hhigh _ hdigits,
      Nat.ofDigits_digits]

/-- The numeral of zero. -/
theorem isNumeral_zero (base : ℕ) (h : 0 < base) : IsNumeral base 0 [48] := by
  refine ⟨fun c hc => ?_, ⟨by decide, fun _ => rfl⟩, ?_⟩
  · rw [List.mem_singleton.mp hc]
    obtain ⟨k, rfl⟩ := Nat.exists_eq_succ_of_ne_zero h.ne'
    exact List.mem_cons_self
  · rfl

/-- No digit is a minus sign. -/
theorem readInt_numeral {base n : ℕ} {s : List UInt8} (h : IsNumeral base n s) : readInt base s = n := by
  have hminus : ∀ t, s ≠ 45 :: t := by
    intro t heq
    have hmem := List.mem_of_mem_take (h.digits 45 (heq ▸ List.mem_cons_self))
    simp [hexDigits] at hmem
  rw [readInt, h.value]
  exact fun t heq => hminus t heq

/-- `_int` prints a minus sign for a negative signed number, and then the numeral of the absolute
value. `xx` has room for it. -/
theorem printInt_numeral {x base : ℕ} (hx : x < 4294967296) (sign : Bool)
    (hbase : base = 10 ∨ base = 16) :
    ∃ ds n, printInt x sign base = .ok ((if sign = true ∧ int32 x < 0 then [45] else []) ++ ds, n) ∧
      IsNumeral base (magnitude x sign) ds ∧
      readInt base ((if sign = true ∧ int32 x < 0 then [45] else []) ++ ds) = if sign then
      int32 x else x := by
  have hlow : 10 ≤ base ∧ base ≤ 16 := by omega
  have hprint := printInt_eq hx sign hlow.1
  rw [intText] at hprint
  by_cases hzero : x = 0
  · subst hzero
    have hvalue : int32 0 = 0 := rfl
    have hmagnitude : magnitude 0 sign = 0 := by cases sign <;> rfl
    have hnumeral := isNumeral_zero base (by omega)
    have hread := readInt_numeral hnumeral
    rw [if_pos rfl] at hprint
    refine ⟨[48], (intCount 0 sign base : ℤ), ?_, by rwa [hmagnitude], ?_⟩
    · rw [hprint, hvalue, if_neg (by omega), List.nil_append]
    · rw [hvalue, if_neg (by omega), List.nil_append, hread]
      cases sign <;> rfl
  · have hmagnitude : magnitude x sign ≠ 0 := by
      cases sign with
      | false => exact hzero
      | true =>
        simp only [magnitude, int32]
        grind
    have hone : 1 < base := by omega
    have hnumeral := isNumeral_digitText hone hlow.2 hmagnitude
    rw [if_neg hzero] at hprint
    refine ⟨digitText base (magnitude x sign), _, hprint, hnumeral, ?_⟩
    by_cases hneg : sign = true ∧ int32 x < 0
    · obtain ⟨rfl, hneg⟩ := hneg
      rw [if_pos ⟨rfl, hneg⟩, List.singleton_append, readInt, hnumeral.value, magnitude]
      simp only [if_true]
      omega
    · rw [if_neg hneg, List.nil_append, readInt_numeral hnumeral, magnitude]
      cases sign with
      | false => rfl
      | true =>
        simp only [if_true]
        grind

/-- `_int` prints the least integer as `-2147483648`. -/
theorem printInt_numeral_least : ∃ ds n, printInt 2147483648 true 10 =
      .ok ((if true = true ∧ int32 2147483648 < 0 then [45] else []) ++ ds, n) ∧
    IsNumeral 10 (magnitude 2147483648 true) ds ∧
    readInt 10 ((if true = true ∧ int32 2147483648 < 0 then [45] else []) ++ ds) =
      if true then int32 2147483648 else (2147483648 : ℕ) :=
  printInt_numeral (by decide) true (.inl rfl)

/-! ## `_two` -/

/-- The loop of `_two`, whose shift keeps the sign. Within the given number of turns it ends, or not. -/
def twoLoop : (turns : ℕ) → BitVec 32 → Option (List UInt8)
  | 0, x => if x = 0 then some [] else none
  | turns + 1, x =>
    if x = 0 then some []
    else (twoLoop turns (x.sshiftRight 1)).map (List.cons (if x &&& 1 ≠ 0 then 49 else 48))

/-- `_two` ends, and its digits from the last to the first are the binary digits of the unsigned
number. -/
structure PrintsBinary (x : BitVec 32) (out : List UInt8) : Prop where
  ends : ∃ turns, twoLoop turns x = some out
  digits : out.map digitValue = Nat.digits 2 x.toNat
  length : out.length ≤ 32

/-- The lowest bit is the lowest digit. -/
theorem and_one_ne_zero (x : BitVec 32) : x &&& 1 ≠ 0 ↔ x.toNat % 2 = 1 := by
  rw [ne_eq, ← BitVec.toNat_inj, BitVec.toNat_and]
  change ¬x.toNat &&& 1 = 0 ↔ _
  rw [Nat.and_one_is_mod]
  omega

/-- A run that ends does not depend on the number of turns. -/
theorem twoLoop_unique {i j : ℕ} {x : BitVec 32} {out out' : List UInt8} (hi : twoLoop i x = some out)
    (hj : twoLoop j x = some out') : out = out' := by
  induction i generalizing j x out out' with
  | zero =>
    by_cases hzero : x = 0
    · subst hzero
      cases j <;> exact Option.some_inj.mp (hi.symm.trans hj)
    · rw [twoLoop, if_neg hzero] at hi
      cases hi
  | succ i ih =>
    by_cases hzero : x = 0
    · subst hzero
      cases j <;> exact Option.some_inj.mp (hi.symm.trans hj)
    · rw [twoLoop, if_neg hzero] at hi
      obtain ⟨rest, hrest, rfl⟩ := Option.map_eq_some_iff.mp hi
      cases j with
      | zero =>
        rw [twoLoop, if_neg hzero] at hj
        cases hj
      | succ j =>
        rw [twoLoop, if_neg hzero] at hj
        obtain ⟨rest', hrest', rfl⟩ := Option.map_eq_some_iff.mp hj
        rw [ih hrest hrest']

/-- With the sign bit clear the loop takes one turn for each binary digit. -/
theorem twoLoop_pos {turns : ℕ} {x : BitVec 32} (hmsb : x.msb = false) (h : x.toNat < 2 ^ turns) :
    twoLoop turns x = some ((Nat.digits 2 x.toNat).map fun b => if b = 0 then 48 else 49) := by
  induction turns generalizing x with
  | zero =>
    have hzero : x = 0 := BitVec.eq_of_toNat_eq (Nat.lt_one_iff.mp h)
    subst hzero
    rfl
  | succ turns ih =>
    rw [twoLoop]
    by_cases hzero : x = 0
    · subst hzero
      rfl
    · have hpos : 0 < x.toNat := Nat.pos_of_ne_zero fun h => hzero (BitVec.eq_of_toNat_eq h)
      have hshift : (x.sshiftRight 1).toNat = x.toNat / 2 := by
        rw [BitVec.toNat_sshiftRight_of_msb_false hmsb, Nat.shiftRight_one]
      have hdigit : (if x &&& 1 ≠ 0 then 49 else 48 : UInt8) = if x.toNat % 2 = 0 then 48 else 49 := by
        have hiff := and_one_ne_zero x
        rcases Nat.mod_two_eq_zero_or_one x.toNat with hbit | hbit
        · rw [if_neg (hiff.not.mpr (by omega)), if_pos hbit]
        · rw [if_pos (hiff.mpr hbit), if_neg (by omega)]
      rw [if_neg hzero, ih (BitVec.msb_sshiftRight.trans hmsb) (by rw [hshift]; omega), hshift,
        hdigit, Option.map_some, Nat.digits_def' (by decide) hpos, List.map_cons]

/-- With the sign bit set the loop never ends. -/
theorem twoLoop_neg (turns : ℕ) {x : BitVec 32} (hmsb : x.msb = true) : twoLoop turns x = none := by
  have hzero : x ≠ 0 := by
    intro h
    subst h
    cases hmsb
  induction turns generalizing x with
  | zero => rw [twoLoop, if_neg hzero]
  | succ turns ih =>
    have hshift : (x.sshiftRight 1).msb = true := BitVec.msb_sshiftRight.trans hmsb
    have hne : x.sshiftRight 1 ≠ 0 := by
      intro h
      rw [h] at hshift
      cases hshift
    rw [twoLoop, if_neg hzero, ih hshift hne, Option.map_none]

/-- A word is not negative as a signed number when its top bit is clear. -/
theorem toInt_nonneg_iff (x : BitVec 32) : 0 ≤ x.toInt ↔ x.msb = false := by
  rw [BitVec.msb_eq_toInt, decide_eq_false_iff_not, not_lt]

/-- `printTwo` is the loop of `_two`. -/
theorem printTwo_eq_loop (x : BitVec 32) (out : List UInt8) :
    printTwo x.toNat = .ok out ↔ ∃ turns, twoLoop turns x = some out := by
  have hint : int32 x.toNat = x.toInt := by
    rw [int32, BitVec.toInt_eq_toNat_cond]
    split <;> split <;> omega
  rw [printTwo, hint]
  by_cases hmsb : x.msb = true
  · rw [if_pos (not_le.mp ((toInt_nonneg_iff x).not.mpr (by simp [hmsb])))]
    constructor
    · intro h
      cases h
    · intro hends
      obtain ⟨turns, h⟩ := hends
      cases (twoLoop_neg turns hmsb).symm.trans h
  · rw [Bool.not_eq_true] at hmsb
    have hloop := twoLoop_pos hmsb x.isLt
    rw [if_neg (not_lt.mpr ((toInt_nonneg_iff x).mpr hmsb)), Except.ok.injEq]
    constructor
    · intro h
      exact ⟨32, hloop.trans (congrArg some h)⟩
    · intro hends
      obtain ⟨turns, h⟩ := hends
      exact twoLoop_unique hloop h

/-- `_two` prints the binary digits of an integer if and only if it is not negative. -/
theorem printsBinary_iff (x : BitVec 32) : (∃ out, PrintsBinary x out) ↔ 0 ≤ x.toInt := by
  rw [toInt_nonneg_iff]
  constructor
  · rintro ⟨out, ⟨turns, h⟩, -, -⟩
    by_contra hmsb
    rw [Bool.not_eq_false] at hmsb
    cases (twoLoop_neg turns hmsb).symm.trans h
  · intro hmsb
    refine ⟨_, ⟨32, twoLoop_pos hmsb x.isLt⟩, ?_, ?_⟩
    · have hself : ∀ b ∈ Nat.digits 2 x.toNat, (digitValue ∘ fun b => if b = 0 then 48 else
          49) b = id b := by
        intro b hb
        have hlt : b < 2 := Nat.digits_lt_base (by decide) hb
        interval_cases b <;> rfl
      rw [List.map_map, List.map_congr_left hself, List.map_id]
    · rw [List.length_map]
      exact Nat.digits_length_le_iff (by decide) _ |>.mpr x.isLt

/-- `_two(-1)` does not end. -/
theorem not_printsBinary : (∀ turns, twoLoop turns (-1) = none) ∧ ¬∃ out, PrintsBinary (-1) out := by
  have hloop : ∀ turns, twoLoop turns (-1) = none := fun turns => twoLoop_neg turns (by decide)
  refine ⟨hloop, ?_⟩
  rintro ⟨out, ⟨turns, h⟩, -, -⟩
  cases (hloop turns).symm.trans h

end Hobby386
