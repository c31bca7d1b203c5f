import Hobby386.Fs.Components
import Hobby386.Fs.Returns

/-!
# The buffers of the path parsers

Where `fs_lookup` and `getname` store into their fixed buffers. The loop of `fs_lookup` checks the
index before it stores a character but not before it stores the terminator, and `getname` takes the
length of the parent from the path.
-/

namespace Hobby386

/-! ## The stores -/

/-- The indices at which `fs_lookup` stores while it copies the next name, from index `l` on. -/
def copyStores : (l : ℕ) → (path : List UInt8) → List ℕ
  | l, [] => [l]
  | l, c :: path =>
    if c = slash then [l]
    else if maxName ≤ l then []
    else l :: copyStores (l + 1) path

/-- The indices at which the loop of `fs_lookup` stores into its name buffer. -/
def lookupStores (inum : ℕ) : (path : List UInt8) → Fs → List ℕ
  | [], _ => []
  | c :: path, fs =>
    copyStores 0 (c :: path) ++
      match _ : copyName 0 (c :: path) with
      | none => []
      | some (name, rest) =>
        match dirLookup fs inum name with
        | .error _ => []
        | .ok r => if r.1 = nullInum then [] else lookupStores r.1 (rest.dropWhile (· = slash)) r.2
termination_by path => path.length
decreasing_by
  rename_i hcopy _
  obtain ⟨-, rfl⟩ := Prod.mk.inj (copyName_eq_some hcopy)
  exact length_rest_lt

/-- The indices at which `fs_lookup` stores into its name buffer. -/
def fsLookupStores (fs : Fs) (path : CString) : List ℕ :=
  if maxPath - 1 < min path.bytes.length maxPath then []
  else
    match path.bytes with
    | [] => []
    | c :: tail => if c ≠ slash then [] else lookupStores rootInum tail fs

/-- The indices of `strncpy(dst, src, n); dst[n] = 0`. -/
def strncpyStores (n : ℕ) : List ℕ := List.range n ++ [n]

/-- The indices at which `getname` stores into the buffers of the name and of the parent. -/
def getnameStores (path : CString) : List ℕ × List ℕ :=
  let len := path.bytes.length
  if len = 0 then ([], [])
  else
    let pp := skipSlashes path.bytes (len - 1)
    if pp = 0 ∧ len ≠ 1 then ([], [])
    else
      let p := nameStart path.bytes pp
      if maxName - 1 < pp + 1 - p then ([], [])
      else (strncpyStores (pp + 1 - p), strncpyStores p)

/-- Every store of `fs_lookup` and of `getname` is inside its buffer. -/
structure StoresInBounds (fs : Fs) (path : CString) : Prop where
  lookup_name : ∀ i ∈ fsLookupStores fs path, i < maxName
  name : ∀ i ∈ (getnameStores path).1, i < maxName
  parent : ∀ i ∈ (getnameStores path).2, i < maxPath

/-- `strncpy` stores inside a buffer exactly when its bound is smaller than the buffer. -/
theorem strncpyStores_lt_iff (n m : ℕ) : (∀ i ∈ strncpyStores n, i < m) ↔ n < m := by
  constructor
  · intro h
    exact h n (by simp [strncpyStores])
  · intro h i hi
    simp only [strncpyStores, List.mem_append, List.mem_range, List.mem_singleton] at hi
    omega

/-! ## Names that fill the buffer -/

/-- The walk of `fs_lookup` over names that are all found. -/
def Fs.walk (fs : Fs) (inum : ℕ) : List (List UInt8) → Option (ℕ × Fs)
  | [] => some (inum, fs)
  | name :: names =>
    match dirLookup fs inum name with
    | .error _ => none
    | .ok r => if r.1 = nullInum then none else r.2.walk r.1 names

/-- A list of names has one that fills the name buffer, behind names that fit it and lead to an inode. -/
def FullFrom (fs : Fs) (inum : ℕ) (names : List (List UInt8)) : Prop :=
  ∃ pre name post, names = pre ++ name :: post ∧ (∀ n ∈ pre, n.length < maxName) ∧
    name.length = maxName ∧
    (fs.walk inum pre).isSome

/-- A name that fills the buffer is met at the first name or at a later one. -/
theorem fullFrom_cons {fs : Fs} {inum : ℕ} {name : List UInt8} {names : List (List UInt8)} :
    FullFrom fs inum (name :: names) ↔ name.length = maxName ∨ name.length < maxName ∧
      ∃ r, dirLookup fs inum name = .ok r ∧ r.1 ≠ nullInum ∧ FullFrom r.2 r.1 names := by
  constructor
  · rintro ⟨pre, full, post, hnames, hshort, hfull, hwalk⟩
    cases pre with
    | nil =>
      injection hnames with hname
      exact .inl (hname ▸ hfull)
    | cons n pre =>
      injection hnames with hname hnames
      subst hname
      rw [Fs.walk] at hwalk
      split at hwalk
      · cases hwalk
      · rename_i r hdir
        split at hwalk
        · cases hwalk
        · rename_i hr
          exact .inr ⟨hshort _ List.mem_cons_self, r, hdir, hr, pre, full, post, hnames,
            fun n hn => hshort n (List.mem_cons_of_mem _ hn), hfull, hwalk⟩
  · rintro (hfull | ⟨hlt, r, hdir, hr, pre, full, post, rfl, hshort, hfull, hwalk⟩)
    · exact ⟨[], name, names, rfl, by simp, hfull, rfl⟩
    · refine ⟨name :: pre, full, post, rfl, List.forall_mem_cons.mpr ⟨hlt, hshort⟩, hfull, ?_⟩
      rw [Fs.walk, hdir]
      dsimp only
      rwa [if_neg hr]

/-- The copy of a name stays in the buffer unless the name is exactly as long as the buffer. -/
theorem copyStores_lt_iff {l : ℕ} (hl : l ≤ maxName) (path : List UInt8) :
    (∀ i ∈ copyStores l path, i < maxName) ↔ l + (path.takeWhile (· ≠ slash)).length ≠ maxName := by
  induction path generalizing l with
  | nil =>
    simp only [copyStores, List.mem_singleton, forall_eq, List.takeWhile_nil, List.length_nil]
    omega
  | cons c path ih =>
    rw [copyStores]
    by_cases hc : c = slash
    · simp only [if_pos hc, List.mem_singleton, forall_eq]
      rw [List.takeWhile_cons_of_neg (by simp [hc]), List.length_nil]
      omega
    · rw [if_neg hc, List.takeWhile_cons_of_pos (by simp [hc]), List.length_cons]
      split
      · simp only [List.not_mem_nil, false_imp_iff, implies_true, true_iff]
        omega
      · rw [List.forall_mem_cons, ih (by omega)]
        omega

/-- A name that is longer than the buffer ends the lookup. -/
theorem copyName_eq_none {l : ℕ} (hl : l ≤ maxName) {path : List UInt8}
    (h : maxName < l + (path.takeWhile (· ≠ slash)).length) : copyName l path = none := by
  induction path generalizing l with
  | nil =>
    rw [List.takeWhile_nil, List.length_nil] at h
    omega
  | cons c path ih =>
    by_cases hc : c = slash
    · rw [List.takeWhile_cons_of_neg (by simp [hc]), List.length_nil] at h
      omega
    · rw [List.takeWhile_cons_of_pos (by simp [hc]), List.length_cons] at h
      rw [copyName, if_neg hc]
      split
      · rfl
      · rw [ih (by omega) (by omega), Option.map_none]

/-- A copy that leaves the buffer is one of a longer name. -/
theorem length_of_copyName_none {path : List UInt8} (h : copyName 0 path = none) :
    maxName < (path.takeWhile (· ≠ slash)).length := by
  by_contra hle
  rw [copyName_of_le (by omega)] at h
  cases h

/-- A copy that stays in the buffer is one of a name that fits. -/
theorem length_of_copyName_some {path : List UInt8} {r : List UInt8 × List UInt8}
    (h : copyName 0 path = some r) :
    (path.takeWhile (· ≠ slash)).length ≤ maxName := by
  by_contra hlong
  rw [copyName_eq_none (Nat.zero_le _) (by omega)] at h
  cases h

/-- The loop of `fs_lookup` stays in the buffer unless it reaches a name that fills it. -/
theorem lookupStores_lt_iff {inum : ℕ} {path : List UInt8} {fs : Fs} :
    (∀ i ∈ lookupStores inum path fs, i < maxName) ↔ ¬FullFrom fs inum (pathNames path) := by
  induction path using pathNames.induct generalizing inum fs with
  | case1 =>
    rw [lookupStores, pathNames_nil]
    simp [FullFrom]
  | case2 c path ih =>
    rw [lookupStores, List.forall_mem_append, copyStores_lt_iff (Nat.zero_le _), Nat.zero_add,
      pathNames_of_ne_nil (List.cons_ne_nil c path), fullFrom_cons]
    split
    · rename_i hcopy
      have hlong := length_of_copyName_none hcopy
      simp only [List.not_mem_nil, false_imp_iff, implies_true, and_true]
      omega
    · rename_i name rest hcopy
      have hle := length_of_copyName_some hcopy
      obtain ⟨rfl, rfl⟩ := Prod.mk.inj (copyName_eq_some hcopy)
      split
      · rename_i hdir
        rw [hdir]
        simp
      · rename_i r hdir
        rw [hdir]
        simp only [Except.ok.injEq, exists_eq_left']
        split
        · rename_i hr
          simp [hr]
        · rename_i hr
          rw [ih]
          have hlt : ((c :: path).takeWhile (· ≠ slash)).length ≠ maxName ↔
              ((c :: path).takeWhile (· ≠ slash)).length < maxName := by omega
          rw [hlt]
          tauto

/-- A path that `fs_lookup` accepts reaches a name that fills the name buffer. -/
def FullName (fs : Fs) (path : CString) : Prop :=
  path.bytes.length < maxPath ∧ ∃ tail, path.bytes = slash :: tail ∧
    FullFrom fs rootInum (pathNames tail)

/-- `fs_lookup` stores inside its buffer exactly when it meets no name that fills it. -/
theorem fsLookupStores_lt_iff {fs : Fs} {path : CString} :
    (∀ i ∈ fsLookupStores fs path, i < maxName) ↔ ¬FullName fs path := by
  rw [fsLookupStores, FullName]
  by_cases hlen : path.bytes.length < maxPath
  · rw [if_neg (by simp only [maxPath] at hlen ⊢; omega)]
    cases hpath : path.bytes with
    | nil => simp
    | cons c tail =>
      rw [hpath] at hlen
      rw [and_iff_right hlen]
      dsimp only
      by_cases hc : c = slash
      · rw [if_neg (not_not_intro hc), lookupStores_lt_iff]
        simp [hc]
      · rw [if_pos hc]
        simp [hc]
  · rw [if_pos (by simp only [maxPath] at hlen ⊢; omega)]
    simp [hlen]

/-- `dir_lookup` stores nowhere that it could leave. -/
theorem dirLookup_ne_outOfBounds {fs : Fs} (hbitmap : fs.su.nblockDat ≤ 4096) (inum : ℕ)
    (name : List UInt8) :
    dirLookup fs inum name ≠ .error .outOfBounds := by
  have hfrom (off n : ℕ) (fs : Fs) (hbitmap : fs.su.nblockDat ≤ 4096) :
      dirLookupFrom inum name off n fs ≠ .error .outOfBounds := by
    induction n generalizing off fs with
    | zero => simp [dirLookupFrom]
    | succ n ih =>
      obtain ⟨r, hread⟩ := fsRead_returns hbitmap inum (fun _ => 0) direntSize off
      have hkeep : r.2.2.su.nblockDat ≤ 4096 := by rwa [(sameStore_fsRead hread).su_eq]
      rw [dirLookupFrom, hread, ok_bind]
      split
      · simp
      · dsimp only
        split
        · simp
        · exact ih _ _ hkeep
  have hsame := sameStore_readInode fs inum
  rw [dirLookup]
  split
  · simp
  · rename_i hdi
    rw [hdi] at hsame
    split
    · simp
    · exact hfrom _ _ _ (by rwa [hsame.su_eq])

/-- The loop of `fs_lookup` gets stuck on a store just when it reaches a name that fills the buffer. -/
theorem lookupNames_outOfBounds_iff {fs : Fs} (hbitmap : fs.su.nblockDat ≤ 4096) {inum : ℕ}
    {path : List UInt8} :
    lookupNames inum path fs = .error .outOfBounds ↔ FullFrom fs inum (pathNames path) := by
  induction path using pathNames.induct generalizing inum fs with
  | case1 =>
    rw [lookupNames, pathNames_nil]
    simp [FullFrom]
  | case2 c path ih =>
    rw [lookupNames, pathNames_of_ne_nil (List.cons_ne_nil c path), fullFrom_cons]
    split
    · rename_i hcopy
      have hlong := length_of_copyName_none hcopy
      simp only [reduceCtorEq, false_iff]
      omega
    · rename_i name rest hcopy
      have hle := length_of_copyName_some hcopy
      obtain ⟨rfl, rfl⟩ := Prod.mk.inj (copyName_eq_some hcopy)
      split
      · rename_i hfull
        exact iff_of_true rfl (.inl (by omega))
      · rename_i hshort
        rw [or_iff_right (by omega), and_iff_right (by omega)]
        cases hdir : dirLookup fs inum ((c :: path).takeWhile (· ≠ slash)) with
        | error e =>
          have hne := dirLookup_ne_outOfBounds hbitmap inum ((c :: path).takeWhile (· ≠ slash))
          rw [hdir] at hne
          rw [error_bind]
          simpa using hne
        | ok r =>
          rw [ok_bind]
          simp only [Except.ok.injEq, exists_eq_left']
          split
          · rename_i hr
            simp [hr]
          · rename_i hr
            have hkeep : r.2.su.nblockDat ≤ 4096 := by rwa [(sameStore_dirLookup hdir).su_eq]
            rw [ih hkeep]
            simp [hr]

/-- `fs_lookup` ends in a store out of bounds exactly when one of its stores is out of bounds. -/
theorem fsLookup_outOfBounds_iff {fs : Fs} (hbitmap : fs.su.nblockDat ≤ 4096) {path : CString} :
    fsLookup fs (some path) = .error .outOfBounds ↔ ¬∀ i ∈ fsLookupStores fs path, i < maxName := by
  rw [fsLookupStores_lt_iff, not_not, FullName, fsLookup]
  by_cases hlen : path.bytes.length < maxPath
  · rw [if_neg (by simp only [maxPath] at hlen ⊢; omega), and_iff_right hlen]
    cases hpath : path.bytes with
    | nil => simp
    | cons c tail =>
      dsimp only
      by_cases hc : c = slash
      · rw [if_neg (not_not_intro hc), lookupNames_outOfBounds_iff hbitmap]
        simp [hc]
      · rw [if_pos hc]
        simp [hc]
  · rw [if_pos (by simp only [maxPath] at hlen ⊢; omega)]
    simp [hlen]

/-! ## `getname` -/

/-- The last component of a path fits the name buffer, and what stands in front of it does not fit the
buffer of the parent. -/
def FarName (path : CString) : Prop :=
  ∃ p pp, NameCut path.bytes p pp ∧ pp + 1 - p < maxName ∧ maxPath ≤ p

/-- No cut of a path ends its name behind that of another one. -/
theorem NameCut.last_le {path : List UInt8} {p pp p' pp' : ℕ} (h : NameCut path p pp)
    (h' : NameCut path p' pp') :
    pp' ≤ pp := by
  by_contra hlt
  have hslash := h.tail pp' (by omega) h'.lt
  have hempty : p' = pp' + 1 := by
    have hle := h'.le
    by_contra hne
    exact h'.name pp' (by omega) le_rfl hslash
  have hone := congrArg List.length (h'.root hempty)
  have hlast := h'.lt
  rw [List.length_singleton] at hone
  omega

/-- Of two cuts with the same end, none starts its name behind the other. -/
theorem NameCut.first_le {path : List UInt8} {p p' pp : ℕ} (h : NameCut path p pp)
    (h' : NameCut path p' pp) :
    p' ≤ p := by
  by_contra hlt
  have hle := h'.le
  exact h.name (p' - 1) (by omega) (by omega) (h'.parent.resolve_left (by omega))

/-- A path has one last component. -/
theorem NameCut.unique {path : List UInt8} {p pp p' pp' : ℕ} (h : NameCut path p pp)
    (h' : NameCut path p' pp') :
    p = p' ∧ pp = pp' := by
  obtain rfl : pp = pp' := Nat.le_antisymm (h'.last_le h) (h.last_le h')
  exact ⟨Nat.le_antisymm (h'.first_le h) (h.first_le h'), rfl⟩

/-- The stores of `getname` into the name stay in their buffer, and those into the parent do unless
the last component starts behind the end of it. -/
theorem getnameStores_lt_iff {path : CString} : (∀ i ∈ (getnameStores path).1, i < maxName) ∧
    ((∀ i ∈ (getnameStores path).2, i < maxPath) ↔ ¬FarName path) := by
  rw [getnameStores]
  dsimp only
  split
  · rename_i hlen
    refine ⟨by simp, iff_of_true (by simp) ?_⟩
    rintro ⟨p, pp, hcut, -⟩
    have hlt := hcut.lt
    omega
  · rename_i hlen
    split
    · rename_i hfirst
      refine ⟨by simp, iff_of_true (by simp) ?_⟩
      rintro ⟨p, pp, hcut, -, hfar⟩
      -- all characters behind the first are slashes, so no component starts at `p`
      have hslash : path.bytes.getD pp 0 = slash :=
        (skipSlashes_spec path.bytes (path.bytes.length - 1)).2.1 pp
          (by have hle := hcut.le; simp only [maxPath] at hfar; omega) (by have hlt := hcut.lt; omega)
      have hempty : p = pp + 1 := by
        have hle := hcut.le
        by_contra hne
        exact hcut.name pp (by omega) le_rfl hslash
      exact hfirst.2 (by rw [hcut.root hempty]; rfl)
    · rename_i hfirst
      have hcut := nameCut_of_loops hlen hfirst
      split
      · rename_i hlong
        refine ⟨by simp, iff_of_true (by simp) ?_⟩
        rintro ⟨p, pp, hcut', hshort, -⟩
        obtain ⟨rfl, rfl⟩ := hcut'.unique hcut
        simp only [maxName] at hlong hshort
        omega
      · rename_i hshort
        simp only [maxName] at hshort
        rw [strncpyStores_lt_iff, strncpyStores_lt_iff]
        refine ⟨by simp only [maxName]; omega, ?_⟩
        constructor
        · rintro hlt ⟨p, pp, hcut', -, hfar⟩
          obtain ⟨rfl, rfl⟩ := hcut'.unique hcut
          omega
        · intro hnear
          by_contra hfar
          exact hnear ⟨_, _, hcut, by simp only [maxName]; omega, by omega⟩

/-- `getname` ends in a store out of bounds exactly when one of its stores is out of bounds. -/
theorem getname_outOfBounds_iff {path : CString} :
    getname (some path) = .error .outOfBounds ↔ ¬∀ i ∈ (getnameStores path).2, i < maxPath := by
  rw [getname_some, getnameStores]
  dsimp only
  split
  · simp
  · split
    · simp
    · split
      · simp
      · rw [strncpyStores_lt_iff, Nat.not_lt]
        split
        · rename_i hfar
          exact iff_of_true rfl hfar
        · rename_i hnear
          exact iff_of_false (by simp) hnear

/-! ## All paths -/

/-- The first name of a path that does not fit the name buffer is as long as the buffer. -/
def FirstFull (path : CString) : Prop :=
  path.bytes.length < maxPath ∧ ∃ tail pre name post, path.bytes = slash :: tail ∧
    pathNames tail = pre ++ name :: post ∧ (∀ n ∈ pre, n.length < maxName) ∧ name.length = maxName

/-- In a directory tree the lookups of `fs_lookup` follow the tree. -/
theorem DirectoryTree.walk_eq {fs : Fs} (htree : DirectoryTree fs) {inum : ℕ} (hi : inum < 200)
    {names : List (List UInt8)} (hne : fs.resolve inum names ≠ nullInum) :
    fs.walk inum names = some (fs.resolve inum names, fs) := by
  induction names generalizing inum with
  | nil => rfl
  | cons name names ih =>
    rw [Fs.resolve] at hne ⊢
    split at hne
    · exact absurd rfl hne
    · rename_i hchild
      rw [Fs.walk, dirLookup_eq htree.init htree.layout hi (htree.dirs.dirs inum hi), if_neg hchild]
      dsimp only
      rw [if_neg hchild, ih (child_lt htree.dirs hi name) hne]

/-- A path has no more names than characters. -/
theorem length_pathNames_le (path : List UInt8) : (pathNames path).length ≤ path.length := by
  induction path using pathNames.induct with
  | case1 => simp
  | case2 c path ih =>
    have hlt := @length_rest_lt c path
    rw [pathNames_of_ne_nil (List.cons_ne_nil c path), List.length_cons]
    omega

/-- Some directory tree leads `fs_lookup` to the name that fills the buffer. -/
theorem FirstFull.exists_tree {path : CString} (h : FirstFull path) :
    ∃ fs, DirectoryTree fs ∧ FullName fs path := by
  obtain ⟨hlen, tail, pre, name, post, hpath, hnames, hshort, hfull⟩ := h
  have hcount : pre.length < 64 := by
    have hle := length_pathNames_le tail
    rw [hnames, List.length_append, List.length_cons] at hle
    rw [hpath, List.length_cons] at hlen
    simp only [maxPath] at hlen
    omega
  have hpre : ∀ n ∈ pre, 0 ∉ n ∧ n.length < maxName := by
    refine fun n hn => ⟨fun hnul => ?_, hshort n hn⟩
    have hmem := (of_mem_pathNames (hnames ▸ List.mem_append_left _ hn)).1.subset hnul
    exact path.nulFree (hpath ▸ List.mem_cons_of_mem _ hmem)
  have htree := directoryTree_chain hcount
  have hend := chainTree_resolve hcount hpre (Nat.zero_le pre.length)
  rw [List.drop_zero, Nat.zero_add] at hend
  have hne : (chainTree pre).resolve rootInum pre ≠ nullInum := by
    rw [hend]
    exact Nat.succ_ne_zero _
  have hwalk := htree.walk_eq (by decide) hne
  exact ⟨chainTree pre, htree, hlen, tail, hpath, pre, name, post, hnames, hshort,
    hfull, by rw [hwalk]; rfl⟩

/-- The stores of the path parsers stay in their buffers unless `fs_lookup` reaches a name that
fills its buffer or the last component starts behind the end of the buffer of the parent. They stay
in the buffers in all directory trees unless the first name that does not fit is as long as the
buffer, or the last component starts behind the end of the other one. -/
theorem storesInBounds_iff (path : CString) :
    (∀ fs, StoresInBounds fs path ↔ ¬FullName fs path ∧ ¬FarName path) ∧
    ((∀ fs, DirectoryTree fs → StoresInBounds fs path) ↔ ¬FirstFull path ∧ ¬FarName path) := by
  have hone (fs : Fs) : StoresInBounds fs path ↔ ¬FullName fs path ∧ ¬FarName path := by
    rw [← fsLookupStores_lt_iff, ← (@getnameStores_lt_iff path).2]
    constructor
    · intro h
      exact ⟨h.lookup_name, h.parent⟩
    · rintro ⟨hlookup, hparent⟩
      exact ⟨hlookup, getnameStores_lt_iff.1, hparent⟩
  refine ⟨hone, fun hall => ?_, ?_⟩
  · constructor
    · intro hfirst
      obtain ⟨fs, htree, hfull⟩ := hfirst.exists_tree
      exact ((hone fs).mp (hall fs htree)).1 hfull
    · have htree : DirectoryTree (chainTree []) := directoryTree_chain (by decide)
      exact ((hone _).mp (hall _ htree)).2
  · rintro ⟨hfirst, hfar⟩ fs -
    refine (hone fs).mpr ⟨?_, hfar⟩
    rintro ⟨hlen, tail, hpath, pre, name, post, hnames, hshort, hfull, -⟩
    exact hfirst ⟨hlen, tail, pre, name, post, hpath, hnames, hshort, hfull⟩

/-- The path `"/fourteen-chars"`. -/
def fourteenPath : CString :=
  ⟨[47, 102, 111, 117, 114, 116, 101, 101, 110, 45, 99, 104, 97, 114, 115], by decide⟩

/-- The path of 64 slashes and a letter. -/
def farPath : CString := ⟨List.replicate 64 slash ++ [97], by decide⟩

/-- A name of 14 characters in the root directory makes `fs_lookup` store its terminator behind the name
buffer, and a letter behind 64 slashes makes `getname` store one behind the buffer of the parent. -/
theorem stores_outOfBounds : DirectoryTree (chainTree []) ∧
    maxName ∈ fsLookupStores (chainTree []) fourteenPath ∧
    maxPath ∈ (getnameStores farPath).2 := by
  exact ⟨directoryTree_chain (by decide), by decide +kernel, by decide +kernel⟩

end Hobby386
