import Hobby386.Grab.CommandWords
import Mathlib.Data.List.Lex

/-!
# Comparing strings

`strncmp` of `util.c` is to compare at most `n` characters. Its loop runs while `i < n`, and nothing
moves `i`.
-/

namespace Hobby386

/-! ## The loop -/

/-- What `strncmp` returns behind its loop. -/
def strncmpEnd (i n : ℕ) (s1 s2 : List UInt8) : ℤ :=
  if i = n then 0
  else if s1.headD 0 = s2.headD 0 then 0
  else if s1.headD 0 ≠ 0 then 1
  else -1

/-- The loop of `strncmp`, which moves `s1` and `s2` only. -/
def strncmpLoop (i n : ℕ) : (s1 s2 : List UInt8) → ℤ
  | x :: xs, y :: ys =>
    if i < n ∧ x ≠ 0 ∧ y ≠ 0 then
      if x.toInt8 < y.toInt8 then -1
      else if y.toInt8 < x.toInt8 then 1
      else strncmpLoop i n xs ys
    else strncmpEnd i n (x :: xs) (y :: ys)
  | s1, s2 => strncmpEnd i n s1 s2

/-- With a positive bound the loop is that of `strcmp`. -/
theorem strncmpLoop_eq_strcmp {n : ℕ} (hn : 0 < n) {s1 s2 : List UInt8} (h1 : 0 ∉ s1) (h2 : 0 ∉ s2) :
    strncmpLoop 0 n s1 s2 = strcmp s1 s2 := by
  have hne : 0 ≠ n := Nat.ne_of_lt hn
  induction s1 generalizing s2 with
  | nil =>
    cases s2 with
    | nil => simp [strncmpLoop, strncmpEnd, strcmp]
    | cons y ys =>
      have hy : y ≠ 0 := fun h => h2 (h ▸ List.mem_cons_self)
      simp [strncmpLoop, strncmpEnd, strcmp, hne, hy, Ne.symm hy]
  | cons x xs ih =>
    have hx : x ≠ 0 := fun h => h1 (h ▸ List.mem_cons_self)
    cases s2 with
    | nil => simp [strncmpLoop, strncmpEnd, strcmp, hne, hx]
    | cons y ys =>
      have hy : y ≠ 0 := fun h => h2 (h ▸ List.mem_cons_self)
      have htail := ih (fun h => h1 (List.mem_cons_of_mem x h)) (fun h => h2 (List.mem_cons_of_mem y h))
      rw [strncmpLoop, strcmp, if_pos ⟨hn, hx, hy⟩, if_neg (not_or.mpr ⟨hx, hy⟩), htail]

/-- `strncmp` is its loop, from `i = 0`. -/
theorem strncmp_eq_loop (s1 s2 : CString) (n : ℕ) :
    strncmp s1.bytes s2.bytes n = strncmpLoop 0 n s1.bytes s2.bytes := by
  rcases Nat.eq_zero_or_pos n with rfl | hn
  · have hzero (s t : List UInt8) : strncmpLoop 0 0 s t = 0 := by
      cases s <;> cases t <;> simp [strncmpLoop, strncmpEnd]
    rw [strncmp, if_neg (Nat.lt_irrefl 0), hzero]
  · rw [strncmp, if_pos hn, strncmpLoop_eq_strcmp hn s1.nulFree s2.nulFree]

/-! ## Lexicographic order -/

/-- The values of the characters, which are signed. -/
def chars (s : List UInt8) : List ℤ := s.map fun c => c.toInt8.toInt

/-- Different texts have different characters. -/
theorem chars_injective : Function.Injective chars :=
  List.map_injective_iff.mpr fun _ _ h => congrArg Int8.toUInt8 (Int8.toInt_inj.mp h)

/-- The characters of a prefix. -/
theorem chars_take (n : ℕ) (s : List UInt8) : chars (s.take n) = (chars s).take n := List.map_take

/-- `strcmp` is negative exactly for lexicographically smaller strings. -/
theorem strcmp_neg_iff {s t : List UInt8} (hs : 0 ∉ s) (ht : 0 ∉ t) : strcmp s t < 0 ↔
    chars s < chars t := by
  induction s generalizing t with
  | nil =>
    cases t with
    | nil => simp [strcmp, chars]
    | cons y ys =>
      have hy : y ≠ 0 := fun h => ht (h ▸ List.mem_cons_self)
      simp [strcmp, chars, hy]
  | cons x xs ih =>
    have hx : x ≠ 0 := fun h => hs (h ▸ List.mem_cons_self)
    cases t with
    | nil => simp [strcmp, chars, hx]
    | cons y ys =>
      have hy : y ≠ 0 := fun h => ht (h ▸ List.mem_cons_self)
      have htail := ih (fun h => hs (List.mem_cons_of_mem x h)) (fun h => ht (List.mem_cons_of_mem y h))
      have hcons : chars (x :: xs) < chars (y :: ys) ↔
          x.toInt8 < y.toInt8 ∨ x.toInt8 = y.toInt8 ∧ chars xs < chars ys := by
        simp only [chars, List.map_cons, List.cons_lt_cons_iff, Int8.lt_iff_toInt_lt, Int8.toInt_inj]
      rw [strcmp, if_neg (not_or.mpr ⟨hx, hy⟩), hcons, ← htail]
      split
      · rename_i hlt
        exact iff_of_true (by decide) (.inl hlt)
      · rename_i hnlt
        split
        · rename_i hgt
          refine iff_of_false (by decide) ?_
          rintro (hlt | ⟨heq, -⟩)
          · exact hnlt hlt
          · exact Int8.lt_irrefl (heq ▸ hgt)
        · rename_i hngt
          have heq : x.toInt8 = y.toInt8 := Int8.le_antisymm (Int8.not_lt.mp hngt) (Int8.not_lt.mp hnlt)
          rw [or_iff_right hnlt, and_iff_right heq]

/-- Swapping the strings changes the sign. -/
theorem strcmp_swap (s t : List UInt8) : strcmp t s = -strcmp s t := by
  induction s generalizing t with
  | nil =>
    cases t with
    | nil => rfl
    | cons y ys =>
      simp only [strcmp]
      split <;> rfl
  | cons x xs ih =>
    cases t with
    | nil =>
      simp only [strcmp]
      split <;> rfl
    | cons y ys =>
      simp only [strcmp, ih]
      grind

/-- Lists that differ in front of a position are ordered by what is in front of it. -/
theorem lt_iff_take_lt {α : Type*} [LinearOrder α] {s t : List α} {n : ℕ} (h : s.take n ≠ t.take n) :
    s < t ↔ s.take n < t.take n := by
  induction n generalizing s t with
  | zero => exact absurd rfl h
  | succ n ih =>
    cases s with
    | nil =>
      cases t with
      | nil => exact absurd rfl h
      | cons b t => simp
    | cons a s =>
      cases t with
      | nil => simp
      | cons b t =>
        rw [List.take_succ_cons, List.take_succ_cons, List.cons_lt_cons_iff, List.cons_lt_cons_iff]
        refine or_congr_right (and_congr_right fun hab => ih fun heq => h ?_)
        rw [List.take_succ_cons, List.take_succ_cons, hab, heq]

/-! ## At most `n` characters -/

/-- `strncmp` compares the first `n` characters: it is 0 for the same prefixes, and has the sign of their
lexicographic comparison otherwise. -/
structure ComparesPrefixes (s1 s2 : CString) (n : ℕ) : Prop where
  zero : strncmp s1.bytes s2.bytes n = 0 ↔ s1.bytes.take n = s2.bytes.take n
  neg : strncmp s1.bytes s2.bytes n < 0 ↔ chars (s1.bytes.take n) < chars (s2.bytes.take n)
  pos : 0 < strncmp s1.bytes s2.bytes n ↔ chars (s2.bytes.take n) < chars (s1.bytes.take n)

/-- The names of the commands. -/
def commandNames : List (List UInt8) := [[108, 115], [98, 111, 111, 116], [115, 101, 116]]

/-- The test of `process_command` for a command. -/
def Recognises (name : List UInt8) (word : CString) : Prop := strncmp name word.bytes name.length = 0

/-- When two prefixes are compared. -/
theorem comparesPrefixes_iff (s1 s2 : CString) (n : ℕ) :
    ComparesPrefixes s1 s2 n ↔ n = 0 ∨ s1 = s2 ∨ s1.bytes.take n ≠ s2.bytes.take n := by
  rcases Nat.eq_zero_or_pos n with rfl | hn
  · refine iff_of_true ⟨?_, ?_, ?_⟩ (.inl rfl) <;> simp [strncmp, chars]
  have hcmp : strncmp s1.bytes s2.bytes n = strcmp s1.bytes s2.bytes := if_pos hn
  have hzero : strcmp s1.bytes s2.bytes = 0 ↔ s1 = s2 := by
    rw [strcmp_eq_zero_iff, cstr_of_nulFree s1.nulFree, cstr_of_nulFree s2.nulFree, CString.ext_iff]
  have hneg := strcmp_neg_iff s1.nulFree s2.nulFree
  have hpos : 0 < strcmp s1.bytes s2.bytes ↔ chars s2.bytes < chars s1.bytes := by
    rw [← strcmp_neg_iff s2.nulFree s1.nulFree, strcmp_swap, neg_pos]
  rw [or_iff_right (Nat.ne_of_gt hn)]
  constructor
  · intro h
    by_cases htake : s1.bytes.take n = s2.bytes.take n
    · exact .inl (hzero.mp (hcmp ▸ h.zero.mpr htake))
    · exact .inr htake
  · rintro (rfl | hne)
    · rw [← hcmp] at hzero hneg hpos
      exact ⟨iff_of_true (hzero.mpr rfl) rfl, iff_of_false (by rw [hzero.mpr rfl]; decide) (lt_irrefl _),
        iff_of_false (by rw [hzero.mpr rfl]; decide) (lt_irrefl _)⟩
    · have hchars : (chars s1.bytes).take n ≠ (chars s2.bytes).take n := by
        rw [← chars_take, ← chars_take]
        exact fun heq => hne (chars_injective heq)
      refine ⟨iff_of_false ?_ hne, ?_, ?_⟩
      · rw [hcmp, hzero]
        rintro rfl
        exact hne rfl
      · rw [hcmp, hneg, chars_take, chars_take]
        exact lt_iff_take_lt hchars
      · rw [hcmp, hpos, chars_take, chars_take]
        exact lt_iff_take_lt hchars.symm

/-- `strncmp` compares at most `n` characters if and only if `n` is 0 or the strings are equal or
differ in front of the bound. So it recognises the words that start with the name of a command only
where they are the name. -/
theorem strncmp_prefixes_iff (s1 s2 : CString) (n : ℕ) :
    (ComparesPrefixes s1 s2 n ↔ n = 0 ∨ s1 = s2 ∨ s1.bytes.take n ≠ s2.bytes.take n) ∧
    ∀ name ∈ commandNames, ((Recognises name s2 ↔ name <+: s2.bytes) ↔
      (name <+: s2.bytes → s2.bytes = name)) := by
  refine ⟨comparesPrefixes_iff s1 s2 n, fun name hname => ?_⟩
  have hname' : 0 ∉ name ∧ 0 < name.length := by
    simp only [commandNames, List.mem_cons, List.not_mem_nil, or_false] at hname
    rcases hname with rfl | rfl | rfl <;> decide
  rw [Recognises, strncmp_eq_zero_iff hname'.1 hname'.2]
  constructor
  · exact fun h => h.mpr
  · exact fun h => ⟨fun heq => heq ▸ List.prefix_refl _, h⟩

/-- `strncmp("ls", "lsx", 2)` is not 0, and `lsx` is not taken for the command. -/
theorem not_strncmp_prefixes :
    (∃ s1 s2 : CString, s1.bytes = [108, 115] ∧ s2.bytes = [108, 115, 120] ∧
      strncmp s1.bytes s2.bytes 2 = -1 ∧
      ¬ComparesPrefixes s1 s2 2) ∧
    ∃ word : CString, [108, 115] <+: word.bytes ∧ ¬Recognises [108, 115] word := by
  refine ⟨⟨⟨[108, 115], by decide⟩, ⟨[108, 115, 120], by decide⟩, rfl, rfl, by decide, fun h => ?_⟩,
    ⟨[108, 115, 120], by decide⟩, ⟨[120], rfl⟩, by rw [Recognises]; decide⟩
  exact absurd (h.zero.mpr rfl) (by decide)

end Hobby386
