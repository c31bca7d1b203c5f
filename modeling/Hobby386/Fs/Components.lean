import Hobby386.Lib.Words
import Hobby386.Fs.Format

/-!
# Lookup as a walk over the components of a path

The components of a path are its pieces between slashes without the empty ones. `fs_lookup`
skips the slashes behind a name but not those behind the first slash of the path, so a path that
starts with two slashes is looked up with an empty name in front of its components.
-/

namespace Hobby386

open PointerForest Words

/-- The non-empty pieces of a path between its slashes. -/
def CString.components (path : CString) : List (List UInt8) :=
  words (fun c => decide (c = slash)) path.bytes

/-- The path starts with two slashes. -/
def CString.StartsTwice (path : CString) : Prop := ∃ rest, path.bytes = slash :: slash :: rest

/-- A path starts twice when its first two characters are slashes. -/
theorem CString.startsTwice_iff (path : CString) : path.StartsTwice ↔
    path.bytes.take 2 = [slash, slash] := by
  constructor
  · rintro ⟨rest, h⟩
    rw [h]
    rfl
  · intro h
    exact ⟨path.bytes.drop 2, by rw [← List.take_append_drop 2 path.bytes, h]; rfl⟩

instance (path : CString) : Decidable path.StartsTwice := decidable_of_iff _ path.startsTwice_iff.symm

/-- A mounted file system whose directories are arrays of entries that refer to inodes. -/
structure DirectoryTree (fs : Fs) : Prop where
  init : fs.init = true
  layout : fs.su.Layout
  dirs : GoodDirs fs

/-! ## The names that are looked up -/

/-- The names of a path that does not go on with a slash are its components. -/
theorem pathNames_eq_words (path : List UInt8) (h : path.head? ≠ some slash) :
    pathNames path = words (fun c => decide (c = slash)) path := by
  induction path using pathNames.induct with
  | case1 => rw [pathNames_nil, words_nil]
  | case2 c path ih =>
    have hc : c ≠ slash := by simpa using h
    have hpred : (fun c : UInt8 => decide (c ≠ slash)) = fun c => !decide (c = slash) := by
      funext c
      simp
    rw [pathNames_of_ne_nil (List.cons_ne_nil c path), words_of_head (by simpa using hc), hpred]
    rw [hpred] at ih
    rw [ih, words_dropWhile]
    have hstop := List.head?_dropWhile_not (fun c => decide (c = slash))
      ((c :: path).dropWhile fun c => !decide (c = slash))
    intro hslash
    rw [hslash] at hstop
    simp at hstop

/-- The names of a path behind its first slash: an empty one if another slash follows, and its
components. -/
theorem pathNames_tail {path : CString} {tail : List UInt8} (hpath : path.bytes = slash :: tail) :
    pathNames tail = if path.StartsTwice then [] :: path.components else path.components := by
  have hcomponents : path.components = words (fun c => decide (c = slash)) tail := by
    rw [CString.components, hpath, words_cons_sep (by simp)]
  cases tail with
  | nil =>
    rw [if_neg (by rintro ⟨rest, h⟩; rw [hpath] at h; cases h), hcomponents, pathNames_nil, words_nil]
  | cons c tail =>
    by_cases hc : c = slash
    · have hrest : ((c :: tail).dropWhile (· = slash)).head? ≠ some slash := by
        have hstop := List.head?_dropWhile_not (fun c => decide (c = slash)) (c :: tail)
        intro hslash
        rw [hslash] at hstop
        simp at hstop
      rw [if_pos ⟨tail, by rw [hpath, hc]⟩, hcomponents, pathNames_of_ne_nil (List.cons_ne_nil c tail),
        List.takeWhile_cons_of_neg (by simp [hc]), List.dropWhile_cons_of_neg (by simp [hc]),
        pathNames_eq_words _ hrest, words_dropWhile]
    · have honce : ¬path.StartsTwice := by
        rintro ⟨rest, h⟩
        rw [hpath] at h
        injection h with _ h
        injection h with h
        exact hc h
      rw [if_neg honce, hcomponents, pathNames_eq_words _ (by simpa using hc)]

section Lookup

variable {path : CString} (habs : path.bytes.head? = some slash) (hlen : path.bytes.length < maxPath)
  (hshort : ∀ name ∈ path.components, name.length < maxName)

include habs hlen hshort

/-- `fs_lookup` walks over the components, with an empty name in front if the path starts with two
slashes. -/
theorem fsLookup_walk {fs : Fs} (htree : DirectoryTree fs) : fsLookup fs (some path) =
    .ok (fs.resolve rootInum (if path.StartsTwice then [] :: path.components else
      path.components), fs) := by
  obtain ⟨tail, hpath⟩ : ∃ tail, path.bytes = slash :: tail := by
    cases hbytes : path.bytes with
    | nil => rw [hbytes] at habs; cases habs
    | cons c tail => rw [hbytes] at habs; cases habs; exact ⟨tail, rfl⟩
  have hnames := pathNames_tail hpath
  rw [fsLookup_of_pathNames htree.init htree.layout htree.dirs hpath hlen, hnames]
  intro name hname
  rw [hnames] at hname
  split at hname
  · rcases List.mem_cons.mp hname with rfl | hname
    · decide
    · exact hshort name hname
  · exact hshort name hname

end Lookup

/-! ## A tree that contains given components -/

/-- The inodes of a chain of directories below the root: directory `i` holds the entry of directory
`i + 1`. -/
def chainInode (names : List (List UInt8)) (i : ℕ) : Dinode :=
  if 1 ≤ i ∧ i ≤ names.length then
    { Dinode.zero with type := tDir, size := 16, ptrs := (57 + i) :: List.replicate 12 0 }
  else if i ≤ names.length + 1 then { Dinode.zero with type := tDir }
  else .zero

/-- The entry that directory `i` of the chain holds. -/
def chainDirent (names : List (List UInt8)) (i : ℕ) : Dirent :=
  ⟨i + 1, strncpy (names.getD (i - 1) []) maxName⟩

/-- The file system whose only directories are the chain of the given names. -/
def chainTree (names : List (List UInt8)) : Fs where
  init := true
  su := newSuper ⟨0, 57 + 4096⟩
  disk := fun n =>
    if 31 ≤ n ∧ n < 56 then .ofFn fun b => (chainInode names (8 * (n - 31) + b / 64)).bytes (b % 64)
    else .ofFn (chainDirent names (n - 57)).bytes
  printed := []

section Chain

variable (names : List (List UInt8))

/-- The layout of the example. -/
theorem chainTree_su : (chainTree names).su.Layout ∧ (chainTree names).su.sinode = 31 :=
  ⟨layout_newSuper (by constructor <;> decide), rfl⟩

/-- The inodes of the example fit their fields. -/
theorem fits_chainInode {i : ℕ} (hi : i < 200) : (chainInode names i).Fits := by
  rw [chainInode]
  split
  · constructor <;> simp [Dinode.zero]
    omega
  · split
    · constructor <;> simp [Dinode.zero]
    · exact Dinode.fits_zero

/-- The inodes of the example. -/
theorem chainTree_dinode {i : ℕ} (hi : i < 200) : (chainTree names).dinode i = chainInode names i := by
  rw [Fs.dinode, (chainTree_su names).2, Block.inode]
  apply Dinode.ofBytes_bytes (fits_chainInode names hi)
  intro b hb
  have hblock : (chainTree names).disk (31 + i / 8) =
      .ofFn fun b => (chainInode names (8 * (31 + i / 8 - 31) + b / 64)).bytes (b % 64) :=
    if_pos (by omega)
  rw [hblock, Block.get_ofFn _ (by omega),
    show 8 * (31 + i / 8 - 31) + (64 * (i % 8) + b) / 64 = i by omega,
    show (64 * (i % 8) + b) % 64 = b by omega]

/-- The directories of the chain have one entry each. -/
theorem chainTree_size {i : ℕ} (hi : i < 200) :
    ((chainTree names).dinode i).size = if 1 ≤ i ∧ i ≤ names.length then 16 else 0 := by
  rw [chainTree_dinode names hi, chainInode]
  split
  · rfl
  · split
    · rfl
    · rfl

variable {names} (hcount : names.length < 64)

include hcount

/-- A directory of the chain that has an entry keeps it in its first block. -/
theorem chainTree_fileBlock {i : ℕ} (hi : 1 ≤ i ∧ i ≤ names.length) :
    (chainTree names).fileBlock i 0 = 57 + i := by
  rw [Fs.fileBlock, chainTree_dinode names (by omega), chainInode, if_pos hi]
  rfl

/-- The entry of a directory of the chain is the next one. -/
theorem chainTree_dirents {i : ℕ} (hi : i < 200) :
    (chainTree names).dirents i = if 1 ≤ i ∧ i ≤ names.length then [chainDirent names i] else [] := by
  rw [Fs.dirents, chainTree_size names hi]
  split
  · rename_i hin
    have hentry : (chainTree names).dirent i 0 = chainDirent names i := by
      refine Dirent.ofBytes_bytes ?_ ?_ fun b hb => ?_
      · simp only [chainDirent]
        omega
      · simp [chainDirent]
      · have hblock : (chainTree names).disk (57 + i) = .ofFn (chainDirent names (57 + i - 57)).bytes :=
          if_neg (by omega)
        have hindex : (16 * 0 + b) / 512 = 0 ∧ (16 * 0 + b) % 512 = b := by omega
        rw [Fs.content, hindex.1, hindex.2, chainTree_fileBlock hcount hin, if_neg (by omega), hblock,
          Block.get_ofFn _ (by omega), Nat.add_sub_cancel_left]
    rw [Nat.div_self (by decide), List.range_one, List.map_singleton, hentry]
  · rfl

/-- The chain is a directory tree. -/
theorem directoryTree_chain : DirectoryTree (chainTree names) where
  init := rfl
  layout := (chainTree_su names).1
  dirs := by
    constructor
    · intro i hi hdir
      by_cases hin : 1 ≤ i ∧ i ≤ names.length
      · have hsize : ((chainTree names).dinode i).size = 16 := by
          rw [chainTree_size names hi, if_pos hin]
        refine ⟨by rw [hsize], by rw [hsize]; decide, fun b hb => ?_⟩
        rw [hsize] at hb
        obtain rfl : b = 0 := by omega
        rw [chainTree_fileBlock hcount hin]
        omega
      · have hsize : ((chainTree names).dinode i).size = 0 := by rw [chainTree_size names hi, if_neg hin]
        exact ⟨by rw [hsize], by rw [hsize]; decide, fun b hb => by rw [hsize] at hb; omega⟩
    · intro i hi hdir de hde
      rw [chainTree_dirents hcount hi] at hde
      split at hde
      · rw [List.mem_singleton.mp hde]
        simp only [chainDirent]
        omega
      · simp at hde

/-- Looking up a name in a directory of the chain. -/
theorem chainTree_child {i : ℕ} (hi : 1 ≤ i ∧ i ≤ names.length + 1) {name : List UInt8}
    (hfree : 0 ∉ name) (hnames : ∀ n ∈ names, 0 ∉ n ∧ n.length < maxName) :
    (chainTree names).child i name =
      if names[i - 1]? = some name then i + 1 else nullInum := by
  have hdir : ((chainTree names).dinode i).type = tDir := by
    rw [chainTree_dinode names (by omega), chainInode]
    split
    · rfl
    · rw [if_pos hi.2]
  rw [Fs.child, if_pos hdir, chainTree_dirents hcount (by omega)]
  by_cases hin : 1 ≤ i ∧ i ≤ names.length
  · have hget : names[i - 1]? = some names[i - 1] := List.getElem?_eq_getElem (by omega)
    obtain ⟨hnul, hshort⟩ := hnames names[i - 1] (List.getElem_mem _)
    have hcmp : strcmp name (chainDirent names i).name = 0 ↔ names[i - 1] = name := by
      rw [strcmp_eq_zero_iff, cstr_of_nulFree hfree, chainDirent, List.getD_eq_getElem _ _ (by omega),
        cstr_strncpy hnul hshort]
      exact eq_comm
    rw [if_pos hin, findName, hget]
    by_cases heq : names[i - 1] = name
    · rw [List.find?_cons_of_pos (by simpa using hcmp.mpr heq), if_pos (congrArg some heq)]
      rfl
    · rw [List.find?_cons_of_neg (by simpa using fun h => heq (hcmp.mp h)),
        if_neg (fun h => heq (Option.some.inj h))]
      rfl
  · rw [if_neg hin, List.getElem?_eq_none (by omega)]
    rfl

/-- The names of the chain lead from the root to its end. -/
theorem chainTree_resolve (hnames : ∀ n ∈ names, 0 ∉ n ∧ n.length < maxName) {i : ℕ}
    (hi : i ≤ names.length) :
    (chainTree names).resolve (i + 1) (names.drop i) = names.length + 1 := by
  induction hk : names.length - i generalizing i with
  | zero =>
    rw [List.drop_of_length_le (by omega), Fs.resolve]
    omega
  | succ k ih =>
    have hlt : i < names.length := by omega
    have hchild := chainTree_child hcount (i := i + 1) (by omega)
      (hnames names[i] (List.getElem_mem hlt)).1 hnames
    rw [Nat.add_sub_cancel, List.getElem?_eq_getElem hlt, if_pos rfl] at hchild
    rw [List.drop_eq_getElem_cons hlt, Fs.resolve, hchild, if_neg (by simp), ih (by omega) (by omega)]

end Chain

/-- There are fewer components than a path buffer has bytes, and they are names. -/
theorem components_spec {path : CString} (hlen : path.bytes.length < maxPath) :
    path.components.length < 64 ∧
    ∀ name ∈ path.components, name ≠ [] ∧ 0 ∉ name := by
  refine ⟨(length_words_le _).trans_lt hlen, fun name hname => ?_⟩
  obtain ⟨hne, hpart, -⟩ := of_mem_words hname
  exact ⟨hne, fun hnul => path.nulFree (hpart.subset hnul)⟩

/-- An absolute path that fits its buffer, and whose components fit theirs, is looked up by walking
over its components if it does not start with two slashes, and in every directory tree only then. In
one tree a path that does start with two slashes is looked up so just when the empty name in front
makes no difference. -/
theorem fsLookup_components_iff (path : CString) (habs : path.bytes.head? = some slash)
    (hlen : path.bytes.length < maxPath) (hshort : ∀ name ∈ path.components, name.length < maxName) :
    (∀ fs, DirectoryTree fs →
      (fsLookup fs (some path) = .ok (fs.resolve rootInum path.components, fs) ↔
        ¬path.StartsTwice ∨ fs.resolve rootInum ([] :: path.components) =
        fs.resolve rootInum path.components)) ∧
    ((∀ fs, DirectoryTree fs → fsLookup fs (some path) = .ok (fs.resolve rootInum path.components, fs)) ↔
      ¬path.StartsTwice) := by
  have hone : ∀ fs, DirectoryTree fs →
      (fsLookup fs (some path) = .ok (fs.resolve rootInum path.components, fs) ↔
        ¬path.StartsTwice ∨ fs.resolve rootInum ([] :: path.components) =
        fs.resolve rootInum path.components) := by
    intro fs htree
    rw [fsLookup_walk habs hlen hshort htree]
    by_cases htwice : path.StartsTwice
    · simp [htwice]
    · simp [htwice]
  refine ⟨hone, fun hall htwice => ?_, fun honce fs htree => (hone fs htree).mpr (.inl honce)⟩
  obtain ⟨hcount, hnames⟩ := components_spec hlen
  have hchain : ∀ name ∈ path.components, 0 ∉ name ∧ name.length < maxName :=
    fun name hname => ⟨(hnames name hname).2, hshort name hname⟩
  have htree := directoryTree_chain hcount
  have hsame := ((hone _ htree).mp (hall _ htree)).resolve_left (not_not_intro htwice)
  have hempty : (chainTree path.components).child rootInum [] = nullInum := by
    rw [chainTree_child hcount ⟨le_rfl, by simp⟩ (by simp) hchain, if_neg]
    intro hget
    exact (hnames [] (List.mem_of_getElem? hget)).1 rfl
  have hend := chainTree_resolve hcount hchain (Nat.zero_le path.components.length)
  rw [Fs.resolve, if_pos hempty] at hsame
  rw [List.drop_zero, Nat.zero_add, ← hsame] at hend
  exact absurd hend (by simp)

/-- The path `"/usr//bin/"`. -/
def usrBinPath : CString := ⟨[47, 117, 115, 114, 47, 47, 98, 105, 110, 47], by decide⟩

/-- The tree with the directory `"/usr/bin"`. -/
def usrBinTree : Fs := chainTree [[117, 115, 114], [98, 105, 110]]

/-- The components of `/usr/bin` in a tree that has them. -/
theorem fsLookup_components_iff_usr_bin : DirectoryTree usrBinTree ∧
    (fsLookup usrBinTree (some usrBinPath) = .ok (usrBinTree.resolve rootInum usrBinPath.components,
      usrBinTree)) ∧
    usrBinTree.resolve rootInum usrBinPath.components = 3 := by
  have htree : DirectoryTree usrBinTree := directoryTree_chain (by decide)
  have honce : ¬usrBinPath.StartsTwice := by decide
  exact ⟨htree, ((fsLookup_components_iff usrBinPath (by decide) (by decide) (by decide)).1 _ htree).mpr
    (.inl honce), by decide +kernel⟩

/-- The path `"//usr/bin"`. -/
def twiceUsrBinPath : CString := ⟨[47, 47, 117, 115, 114, 47, 98, 105, 110], by decide⟩

/-- Two slashes in front make `fs_lookup` miss a directory that is there. -/
theorem fsLookup_twice_slash : DirectoryTree usrBinTree ∧ twiceUsrBinPath.bytes.head? = some slash ∧
    twiceUsrBinPath.bytes.length < maxPath ∧
    (∀ name ∈ twiceUsrBinPath.components, name.length < maxName) ∧
    usrBinTree.resolve rootInum twiceUsrBinPath.components = 3 ∧
    fsLookup usrBinTree (some twiceUsrBinPath) = .ok (nullInum, usrBinTree) := by
  have htree : DirectoryTree usrBinTree := directoryTree_chain (by decide)
  have hlost : usrBinTree.resolve rootInum ([] :: twiceUsrBinPath.components) = nullInum := by
    decide +kernel
  refine ⟨htree, by decide, by decide, by decide, by decide +kernel, ?_⟩
  rw [fsLookup_walk (by decide) (by decide) (by decide) htree, if_pos (by decide), hlost]

end Hobby386
