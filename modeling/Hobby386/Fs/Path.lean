import Hobby386.Fs.State
import Mathlib.Data.List.TakeWhile

/-!
# Paths

C strings and the two path parsers: `getname`, which walks a path backwards and cuts it into
a parent and a name, and the loops of `fs_lookup`, which walk it forwards one name at a time.
-/

namespace Hobby386

/-- The size of the path buffers. -/
@[simp] abbrev maxPath : ℕ := 64

/-- The character `'/'`. -/
@[simp] abbrev slash : UInt8 := 47

/-- A C string without its terminator. -/
@[ext] structure CString where
  bytes : List UInt8
  nulFree : 0 ∉ bytes
  deriving DecidableEq

/-- The `n` characters from index `i` on. -/
def CString.slice (s : CString) (i n : ℕ) : CString where
  bytes := (s.bytes.drop i).take n
  nulFree := fun h => s.nulFree (List.mem_of_mem_drop (List.mem_of_mem_take h))

/-- `strncpy(dst, src, n)`: the `n` bytes it stores, padded with zeros. -/
def strncpy (src : List UInt8) (n : ℕ) : List UInt8 := (List.range n).map fun i => src.getD i 0

/-- `strcmp`. A byte behind the end of a list is a terminator. -/
def strcmp : (s1 s2 : List UInt8) → ℤ
  | [], [] => 0
  | [], y :: _ => if y = 0 then 0 else -1
  | x :: _, [] => if x = 0 then 0 else 1
  | x :: xs, y :: ys =>
    if x = 0 ∨ y = 0 then if x = y then 0 else if x = 0 then -1 else 1
    else if x.toInt8 < y.toInt8 then -1
    else if y.toInt8 < x.toInt8 then 1
    else strcmp xs ys

/-- The C string at the start of a byte array. -/
def cstr (s : List UInt8) : List UInt8 := s.takeWhile (· ≠ 0)

/-- `strcmp` compares C strings. -/
theorem strcmp_eq_zero_iff {s1 s2 : List UInt8} : strcmp s1 s2 = 0 ↔ cstr s1 = cstr s2 := by
  induction s1 generalizing s2 with
  | nil =>
    cases s2 with
    | nil => simp [strcmp]
    | cons y ys => by_cases hy : y = 0 <;> simp [strcmp, cstr, hy]
  | cons x xs ih =>
    cases s2 with
    | nil => by_cases hx : x = 0 <;> simp [strcmp, cstr, hx]
    | cons y ys =>
      have horder : ¬x.toInt8 < y.toInt8 ∧ ¬y.toInt8 < x.toInt8 ↔ x = y := by
        constructor
        · rintro ⟨h1, h2⟩
          exact congrArg Int8.toUInt8 (Int8.le_antisymm (Int8.not_lt.mp h2) (Int8.not_lt.mp h1))
        · rintro rfl
          simp
      by_cases hx : x = 0
      · by_cases hy : y = 0
        · simp [strcmp, cstr, hx, hy]
        · simp [strcmp, cstr, hx, hy, Ne.symm hy]
      · by_cases hy : y = 0
        · simp [strcmp, cstr, hx, hy]
        · simp only [cstr] at ih
          simp only [strcmp, hx, hy, or_self, if_false, cstr]
          rw [List.takeWhile_cons_of_pos (by simp [hx]), List.takeWhile_cons_of_pos (by simp [hy]),
            List.cons.injEq, ← ih, ← horder]
          split
          · rename_i h
            simp [h]
          · split
            · rename_i h
              simp [h]
            · rename_i h1 h2
              simp [h1, h2]

/-- A string without a terminator is its own C string. -/
theorem cstr_of_nulFree {s : List UInt8} (hfree : 0 ∉ s) : cstr s = s :=
  List.takeWhile_eq_self_iff.mpr fun _ hc => decide_eq_true (by rintro rfl; exact hfree hc)

/-- A copy that is longer than the string is terminated. -/
theorem zero_mem_strncpy {s : List UInt8} {n : ℕ} (hlen : s.length < n) : 0 ∈ strncpy s n :=
  List.mem_map.mpr ⟨s.length, List.mem_range.mpr hlen, by simp⟩

/-- A name that is stored in a directory entry reads back. -/
theorem cstr_strncpy {s : List UInt8} (hfree : 0 ∉ s) {n : ℕ} (hlen : s.length < n) :
    cstr (strncpy s n) = s := by
  have hpad : strncpy s n = s ++ List.replicate (n - s.length) 0 := by
    apply List.ext_getElem (by simp [strncpy]; omega)
    intro i hi hi'
    simp only [strncpy, List.getElem_map, List.getElem_range]
    rcases Nat.lt_or_ge i s.length with hlt | hge
    · rw [List.getElem_append_left hlt, List.getD_eq_getElem _ _ hlt]
    · rw [List.getElem_append_right hge, List.getElem_replicate, List.getD_eq_default _ _ hge]
  have hkeep : ∀ c ∈ s, decide (c ≠ 0) = true := fun c hc =>
    decide_eq_true (by rintro rfl; exact hfree hc)
  rw [cstr, hpad, List.takeWhile_append_of_pos hkeep, List.takeWhile_replicate]
  simp

/-- `strncpy` fills the whole field. -/
@[simp] theorem length_strncpy (s : List UInt8) (n : ℕ) : (strncpy s n).length = n := by simp [strncpy]

/-! ## `getname` -/

/-- The loop `for (; p != path && p[0] == '/'; p--)`. -/
def skipSlashes (path : List UInt8) : ℕ → ℕ
  | 0 => 0
  | p + 1 => if path.getD (p + 1) 0 = slash then skipSlashes path p else p + 1

/-- The loop `for (; p != path && p[0] != '/'; p--)`. -/
def skipName (path : List UInt8) : ℕ → ℕ
  | 0 => 0
  | p + 1 => if path.getD (p + 1) 0 ≠ slash then skipName path p else p + 1

/-- `getname` with its return value: the index in the path, the name and the parent, `none` for the
return value 0. The buffer of the parent has `MAXPATH` bytes. -/
def getnameAt (path : Option CString) : Except Fault (Option (ℕ × CString × CString)) :=
  match path with
  | none => .ok none
  | some path =>
    let len := path.bytes.length
    if len = 0 then .ok none
    else
      let pp := skipSlashes path.bytes (len - 1)
      if pp = 0 ∧ len ≠ 1 then .ok none
      else
        let p := skipName path.bytes pp
        let p := if path.bytes.getD p 0 = slash then p + 1 else p
        if maxName - 1 < pp + 1 - p then .ok none
        else if maxPath ≤ p then .error .outOfBounds
        else .ok (some (p, path.slice p (pp + 1 - p), path.slice 0 p))

/-- `getname` for its caller, which looks at the name and the parent only. -/
def getname (path : Option CString) : Except Fault (Option (CString × CString)) :=
  (getnameAt path).map (Option.map Prod.snd)

/-! ## The loops of `fs_lookup` -/

/-- The loop that copies the next name, from index `l` of the buffer on: the name and the rest of
the path, `none` when the loop returns `NULLINUM`. -/
def copyName : (l : ℕ) → (path : List UInt8) → Option (List UInt8 × List UInt8)
  | _, [] => some ([], [])
  | l, c :: path =>
    if c = slash then some ([], c :: path)
    else if maxName ≤ l then none
    else (copyName (l + 1) path).map fun r => (c :: r.1, r.2)

/-- The copied name is the path up to the next slash. -/
theorem copyName_eq_some {l : ℕ} {path : List UInt8} {r : List UInt8 × List UInt8}
    (h : copyName l path = some r) :
    r = (path.takeWhile (· ≠ slash), path.dropWhile (· ≠ slash)) := by
  induction path generalizing l r with
  | nil =>
    cases h
    rfl
  | cons c path ih =>
    rw [copyName] at h
    split at h
    · rename_i hc
      cases h
      simp [hc]
    · rename_i hc
      split at h
      · cases h
      · obtain ⟨r', hr', rfl⟩ := Option.map_eq_some_iff.mp h
        rw [ih hr']
        simp [hc]

/-- A name that fits the buffer is copied. -/
theorem copyName_of_le {l : ℕ} {path : List UInt8}
    (h : l + (path.takeWhile (· ≠ slash)).length ≤ maxName) :
    copyName l path = some (path.takeWhile (· ≠ slash), path.dropWhile (· ≠ slash)) := by
  induction path generalizing l with
  | nil => rfl
  | cons c path ih =>
    by_cases hc : c = slash
    · rw [copyName, if_pos hc, List.takeWhile_cons_of_neg (by simp [hc]),
        List.dropWhile_cons_of_neg (by simp [hc])]
    · rw [List.takeWhile_cons_of_pos (by simp [hc]), List.length_cons] at h
      rw [copyName, if_neg hc, if_neg (by omega), ih (by omega),
        List.takeWhile_cons_of_pos (by simp [hc]), List.dropWhile_cons_of_pos (by simp [hc])]
      rfl

/-- Every round of the loop over the names consumes a character. -/
theorem length_rest_lt {c : UInt8} {path : List UInt8} :
    (((c :: path).dropWhile (· ≠ slash)).dropWhile (· = slash)).length < (c :: path).length := by
  by_cases hc : c = slash
  · rw [List.dropWhile_cons_of_neg (by simp [hc]), List.dropWhile_cons_of_pos (by simp [hc])]
    exact Nat.lt_succ_of_le (List.length_dropWhile_le _ _)
  · rw [List.dropWhile_cons_of_pos (by simp [hc])]
    exact Nat.lt_succ_of_le ((List.length_dropWhile_le _ _).trans (List.length_dropWhile_le _ _))

/-- The names `fs_lookup` looks up one after the other, given the path behind its first slash. The
first one is empty when that path starts with a slash. -/
def pathNames : (path : List UInt8) → List (List UInt8)
  | [] => []
  | c :: path =>
    (c :: path).takeWhile (· ≠ slash) ::
      pathNames (((c :: path).dropWhile (· ≠ slash)).dropWhile (· = slash))
termination_by path => path.length
decreasing_by exact length_rest_lt

/-- An empty path has no names. -/
@[simp] theorem pathNames_nil : pathNames [] = [] := by rw [pathNames]

/-- The first name of a path goes up to the first slash, and the rest starts behind the slashes. -/
theorem pathNames_of_ne_nil {path : List UInt8} (h : path ≠ []) : pathNames path =
    path.takeWhile (· ≠ slash) :: pathNames ((path.dropWhile (· ≠ slash)).dropWhile (· = slash)) := by
  obtain ⟨c, path, rfl⟩ := List.exists_cons_of_ne_nil h
  rw [pathNames]

/-- What is left of a path that ends with a slash ends with a slash. -/
theorem getLast?_of_suffix {u t : List UInt8} (h : u <:+ t) (ht : t.getLast? = some slash) :
    u = [] ∨ u.getLast? = some slash := by
  obtain ⟨v, rfl⟩ := h
  by_cases hu : u = []
  · exact .inl hu
  · right
    rw [List.getLast?_append, List.getLast?_eq_some_getLast hu] at ht
    rw [List.getLast?_eq_some_getLast hu]
    simpa using ht

/-- The names of a path that continues a parent path. -/
theorem pathNames_append {t name tail : List UInt8} (ht : t = [] ∨ t.getLast? = some slash)
    (hname : name ≠ []) (hfree : slash ∉ name) (htail : ∀ c ∈ tail, c = slash) :
    pathNames (t ++ (name ++ tail)) = pathNames t ++ [name] := by
  have hkeep : ∀ c ∈ name, decide (c ≠ slash) = true := fun c hc =>
    decide_eq_true (by rintro rfl; exact hfree hc)
  have hstop : tail.takeWhile (· ≠ slash) = [] ∧ tail.dropWhile (· ≠ slash) = tail := by
    cases tail with
    | nil => exact ⟨rfl, rfl⟩
    | cons c tail => simp [htail c List.mem_cons_self]
  have hslashes : tail.dropWhile (· = slash) = [] :=
    List.dropWhile_eq_nil_iff.mpr fun c hc => decide_eq_true (htail c hc)
  have hstart : (name ++ tail).dropWhile (· = slash) = name ++ tail := by
    obtain ⟨a, as, rfl⟩ := List.exists_cons_of_ne_nil hname
    rw [List.cons_append, List.dropWhile_cons_of_neg]
    simpa using hkeep a List.mem_cons_self
  induction t using pathNames.induct with
  | case1 =>
    rw [List.nil_append, pathNames_of_ne_nil (by simp [hname]), List.takeWhile_append_of_pos hkeep,
      List.dropWhile_append_of_pos hkeep, hstop.1, hstop.2, hslashes, List.append_nil, pathNames_nil,
      List.nil_append]
  | case2 c path ih =>
    have hlast : (c :: path).getLast? = some slash := ht.resolve_left (by simp)
    have hmem : slash ∈ c :: path := List.mem_of_getLast? hlast
    have hrest : (c :: path).dropWhile (· ≠ slash) ≠ [] := fun h =>
      absurd (List.dropWhile_eq_nil_iff.mp h slash hmem) (by simp)
    have htake : ((c :: path) ++ (name ++ tail)).takeWhile (· ≠ slash) =
        (c :: path).takeWhile (· ≠ slash) := by
      rw [List.takeWhile_append, if_neg]
      intro hlen
      have hall := congrArg List.length ((c :: path).takeWhile_append_dropWhile (p := (· ≠ slash)))
      rw [List.length_append, hlen] at hall
      exact hrest (List.length_eq_zero_iff.mp (by omega))
    have hsuffix : ((c :: path).dropWhile (· ≠ slash)).dropWhile (· = slash) <:+ c :: path :=
      (List.dropWhile_suffix _).trans (List.dropWhile_suffix _)
    have hdrop : (((c :: path) ++ (name ++ tail)).dropWhile (· ≠ slash)).dropWhile (· = slash) =
        ((c :: path).dropWhile (· ≠ slash)).dropWhile (· = slash) ++ (name ++ tail) := by
      rw [List.dropWhile_append, if_neg (fun h => hrest (List.isEmpty_iff.mp h)), List.dropWhile_append]
      split
      · rename_i hempty
        rw [hstart, List.isEmpty_iff.mp hempty, List.nil_append]
      · rfl
    have hnames := pathNames_of_ne_nil (List.cons_ne_nil c path)
    rw [pathNames_of_ne_nil (by simp), htake, hdrop, ih (getLast?_of_suffix hsuffix hlast), hnames,
      List.cons_append]

/-- The names of a path are pieces of it between slashes. -/
theorem of_mem_pathNames {path name : List UInt8} (h : name ∈ pathNames path) :
    name <:+: path ∧ slash ∉ name := by
  induction path using pathNames.induct with
  | case1 => simp at h
  | case2 c path ih =>
    rw [pathNames_of_ne_nil (List.cons_ne_nil c path), List.mem_cons] at h
    rcases h with rfl | h
    · refine ⟨(List.takeWhile_prefix _).isInfix, fun hmem => ?_⟩
      exact absurd (List.mem_takeWhile_imp hmem) (by simp)
    · obtain ⟨hpart, hfree⟩ := ih h
      exact ⟨hpart.trans ((List.dropWhile_suffix _).trans (List.dropWhile_suffix _)).isInfix, hfree⟩

/-- Every component of a path is shorter than `MAXNAME`. -/
def CString.ShortNames (path : CString) : Prop :=
  ∀ name, name <:+: path.bytes → slash ∉ name → name.length < maxName

/-! ## What `getname` returns -/

/-- A loop that goes back while `q` holds ends at 0 or where `q` fails. -/
theorem goesBack_spec {f : ℕ → ℕ} {q : ℕ → Prop} (hzero : f 0 = 0)
    (hback : ∀ p, q (p + 1) → f (p + 1) = f p) (hstop : ∀ p, ¬q (p + 1) → f (p + 1) = p + 1) (p : ℕ) :
    f p ≤ p ∧ (∀ i, f p < i → i ≤ p → q i) ∧ (f p = 0 ∨ ¬q (f p)) := by
  induction p with
  | zero => exact ⟨hzero.le, fun i hi hi' => absurd hi' (by omega), .inl hzero⟩
  | succ p ih =>
    by_cases hq : q (p + 1)
    · obtain ⟨hle, hall, hend⟩ := ih
      rw [hback p hq]
      refine ⟨by omega, fun i hi hi' => ?_, hend⟩
      rcases Nat.eq_or_lt_of_le hi' with rfl | hlt
      · exact hq
      · exact hall i hi (by omega)
    · rw [hstop p hq]
      exact ⟨le_rfl, fun i hi hi' => absurd hi' (by omega), .inr hq⟩

/-- Going back over slashes stops at the last position without one, or at 0. -/
theorem skipSlashes_spec (path : List UInt8) (p : ℕ) : skipSlashes path p ≤ p ∧
    (∀ i, skipSlashes path p < i → i ≤ p → path.getD i 0 = slash) ∧
    (skipSlashes path p = 0 ∨ path.getD (skipSlashes path p) 0 ≠ slash) :=
  goesBack_spec (f := skipSlashes path) (q := fun i => path.getD i 0 = slash) rfl
    (fun p hslash => by rw [skipSlashes, if_pos hslash])
    (fun p hslash => by rw [skipSlashes, if_neg hslash]) p

/-- Going back over a name stops at the last slash, or at 0. -/
theorem skipName_spec (path : List UInt8) (p : ℕ) : skipName path p ≤ p ∧
    (∀ i, skipName path p < i → i ≤ p → path.getD i 0 ≠ slash) ∧
    (skipName path p = 0 ∨ path.getD (skipName path p) 0 = slash) := by
  have hspec := goesBack_spec (f := skipName path) (q := fun i => path.getD i 0 ≠ slash) rfl
    (fun p hslash => by rw [skipName, if_pos hslash]) (fun p hslash => by rw [skipName, if_neg hslash]) p
  rwa [not_not] at hspec

/-- The indices that `getname` cuts at: the last component of the path is at the indices from `p` to
`pp`, with nothing but slashes behind it. Only for the root path it is empty. -/
structure NameCut (path : List UInt8) (p pp : ℕ) : Prop where
  lt : pp < path.length
  le : p ≤ pp + 1
  name : ∀ i, p ≤ i → i ≤ pp → path.getD i 0 ≠ slash
  tail : ∀ i, pp < i → i < path.length → path.getD i 0 = slash
  parent : p = 0 ∨ path.getD (p - 1) 0 = slash
  root : p = pp + 1 → path = [slash]

/-- The index that `getname` takes the name from. -/
def nameStart (path : List UInt8) (pp : ℕ) : ℕ :=
  if path.getD (skipName path pp) 0 = slash then skipName path pp + 1 else skipName path pp

/-- What `getname` stores for a path. -/
theorem getname_some (path : CString) : getname (some path) =
    if path.bytes.length = 0 then .ok none
    else if skipSlashes path.bytes (path.bytes.length - 1) = 0 ∧ path.bytes.length ≠ 1 then .ok none
    else
      let pp := skipSlashes path.bytes (path.bytes.length - 1)
      let p := nameStart path.bytes pp
      if maxName - 1 < pp + 1 - p then .ok none
      else if maxPath ≤ p then .error .outOfBounds
      else .ok (some (path.slice p (pp + 1 - p), path.slice 0 p)) := by
  rw [getname, getnameAt]
  dsimp only
  rw [← nameStart]
  generalize nameStart path.bytes (skipSlashes path.bytes (path.bytes.length - 1)) = p
  repeat' split
  all_goals rfl

/-- The loops of `getname` find the last component. -/
theorem nameCut_of_loops {path : List UInt8} (hlen : path.length ≠ 0)
    (hfirst : ¬(skipSlashes path (path.length - 1) = 0 ∧ path.length ≠ 1)) :
    NameCut path (nameStart path (skipSlashes path (path.length - 1)))
      (skipSlashes path (path.length - 1)) := by
  have hlast : path.length - 1 < path.length := Nat.sub_one_lt hlen
  obtain ⟨hpp, htail, hppstop⟩ := skipSlashes_spec path (path.length - 1)
  generalize skipSlashes path (path.length - 1) = pp at *
  obtain ⟨hp, hname, hpstop⟩ := skipName_spec path pp
  rw [nameStart]
  generalize skipName path pp = p at *
  have hbehind : ∀ i, pp < i → i < path.length → path.getD i 0 = slash :=
    fun i hi hi' => htail i hi (by omega)
  split
  · rename_i hslash
    refine ⟨by omega, by omega, fun i hi hi' => hname i (by omega) hi', hbehind, .inr hslash,
      fun hq => ?_⟩
    obtain rfl : p = pp := by omega
    have hzero : p = 0 := hppstop.resolve_right (not_not_intro hslash)
    have hone : path.length = 1 := by
      by_contra hne
      exact hfirst ⟨hzero, hne⟩
    obtain ⟨c, hc⟩ := List.length_eq_one_iff.mp hone
    rw [hzero, hc] at hslash
    rw [hc, show c = slash from hslash]
  · rename_i hslash
    have hzero : p = 0 := hpstop.resolve_right hslash
    refine ⟨by omega, by omega, fun i hi hi' => ?_, hbehind, .inl hzero, fun hq => by omega⟩
    rcases Nat.eq_or_lt_of_le hi with rfl | hlt
    · exact hslash
    · exact hname i hlt hi'

/-- `getname` cuts a path into a parent that ends with a slash, a name without slashes that fits its
buffer, and slashes at the end. Only for the root path the name is empty. -/
structure NameOf (path name parent : CString) (tail : List UInt8) : Prop where
  split : path.bytes = parent.bytes ++ (name.bytes ++ tail)
  tail : ∀ c ∈ tail, c = slash
  name_free : slash ∉ name.bytes
  name_lt : name.bytes.length < maxName
  parent_lt : parent.bytes.length < maxPath
  parent_last : parent.bytes = [] ∨ parent.bytes.getLast? = some slash
  name_nil : name.bytes = [] → path.bytes = [slash]

section Cut

variable {path : List UInt8} {p pp : ℕ} (hcut : NameCut path p pp)

include hcut

/-- The three parts make up the path. -/
theorem NameCut.split_eq :
    path = path.take p ++ ((path.drop p).take (pp + 1 - p) ++ path.drop (pp + 1)) := by
  have hp := hcut.le
  have hdrop : path.drop (pp + 1) = (path.drop p).drop (pp + 1 - p) := by
    rw [List.drop_drop, Nat.add_sub_cancel' hp]
  rw [hdrop, List.take_append_drop, List.take_append_drop]

/-- Behind the name there are only slashes. -/
theorem NameCut.tail_slash : ∀ c ∈ path.drop (pp + 1), c = slash := by
  intro c hc
  obtain ⟨i, hi, rfl⟩ := List.mem_iff_getElem.mp hc
  rw [List.length_drop] at hi
  rw [List.getElem_drop, ← List.getD_eq_getElem _ 0 (by omega)]
  exact hcut.tail _ (by omega) (by omega)

/-- The name has no slash. -/
theorem NameCut.name_free : slash ∉ (path.drop p).take (pp + 1 - p) := by
  have hpp := hcut.lt
  intro hc
  obtain ⟨i, hi, heq⟩ := List.mem_iff_getElem.mp hc
  rw [List.length_take, List.length_drop] at hi
  rw [List.getElem_take, List.getElem_drop, ← List.getD_eq_getElem _ 0 (by omega)] at heq
  exact hcut.name _ (by omega) (by omega) heq

/-- The parent is empty or ends with a slash. -/
theorem NameCut.parent_last : path.take p = [] ∨ (path.take p).getLast? = some slash := by
  have hpp := hcut.lt
  have hp := hcut.le
  rcases hcut.parent with rfl | hslash
  · exact .inl List.take_zero
  · rcases Nat.eq_zero_or_pos p with rfl | hpos
    · exact .inl List.take_zero
    · right
      have hlength : (path.take p).length = p := by
        rw [List.length_take]
        omega
      rw [List.getLast?_eq_getElem?, hlength, List.getElem?_eq_getElem (by omega), List.getElem_take,
        ← List.getD_eq_getElem _ 0 (by omega), hslash]

/-- The length of the name. -/
theorem NameCut.length_name : ((path.drop p).take (pp + 1 - p)).length = pp + 1 - p := by
  have hpp := hcut.lt
  rw [List.length_take, List.length_drop]
  omega

end Cut

/-- Cutting a path at the indices that `getname` computes. -/
theorem NameCut.nameOf {path : CString} {p pp : ℕ} (hcut : NameCut path.bytes p pp)
    (hlen : pp + 1 - p < maxName) (hmax : p < maxPath) :
    NameOf path (path.slice p (pp + 1 - p)) (path.slice 0 p) (path.bytes.drop (pp + 1)) where
  split := hcut.split_eq
  tail := hcut.tail_slash
  name_free := hcut.name_free
  name_lt := hcut.length_name.trans_lt hlen
  parent_lt := (List.length_take_le _ _).trans_lt hmax
  parent_last := hcut.parent_last
  name_nil := by
    intro hnil
    have hlength := hcut.length_name
    have hp := hcut.le
    rw [show (path.bytes.drop p).take (pp + 1 - p) = [] from hnil, List.length_nil] at hlength
    exact hcut.root (by omega)

/-- What `getname` cuts a path into. -/
theorem getname_eq_some {path name parent : CString}
    (h : getname (some path) = .ok (some (name, parent))) : ∃ tail, NameOf path name parent tail := by
  rw [getname_some] at h
  dsimp only at h
  split at h
  · cases h
  · rename_i hlen
    split at h
    · cases h
    · rename_i hfirst
      have hcut := nameCut_of_loops hlen hfirst
      split at h
      · cases h
      · split at h
        · cases h
        · cases h
          exact ⟨_, hcut.nameOf (by simp only [maxName] at *; omega) (by omega)⟩

/-- `getname` stays inside its buffers on every path that fits the path buffer. -/
theorem getname_returns {path : CString} (h : path.bytes.length < maxPath) :
    ∃ r, getname (some path) = .ok r := by
  rw [getname_some]
  dsimp only
  split
  · exact ⟨_, rfl⟩
  · rename_i hlen
    split
    · exact ⟨_, rfl⟩
    · rename_i hfirst
      have hcut := nameCut_of_loops hlen hfirst
      have hpp := hcut.lt
      have hp := hcut.le
      split
      · exact ⟨_, rfl⟩
      · rw [if_neg (by omega)]
        exact ⟨_, rfl⟩

/-- The components of the parent are components of the path. -/
theorem NameOf.parent_shortNames {path name parent : CString} {tail : List UInt8}
    (h : NameOf path name parent tail) (hshort : path.ShortNames) : parent.ShortNames := by
  intro n hn
  exact hshort n (hn.trans (h.split ▸ (List.prefix_append parent.bytes _).isInfix))

end Hobby386
