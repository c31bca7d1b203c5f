import Hobby386.Fs.Directory
import Hobby386.Fs.ReadFile

/-!
# Looking up paths

On directories without holes `dir_lookup` finds the first entry of a name, and `fs_lookup`
follows the names of a path. On any disk at all, lookups change nothing but the messages.
-/

namespace Hobby386

open PointerForest

variable {fs fs' : Fs} {inum : ℕ}

/-! ## Lookups are read-only -/

/-- Two states that differ in the messages only. -/
def SameStore (fs fs' : Fs) : Prop := fs' = { fs with printed := fs'.printed }

/-- Doing nothing keeps the store. -/
theorem SameStore.refl (fs : Fs) : SameStore fs fs := rfl

/-- Two steps that keep the store. -/
theorem SameStore.trans {fs₁ fs₂ fs₃ : Fs} (h : SameStore fs₁ fs₂) (h' : SameStore fs₂ fs₃) :
    SameStore fs₁ fs₃ := by
  rw [SameStore] at h h' ⊢
  rw [h', h]

/-- Printing keeps the store. -/
theorem SameStore.printf (fs : Fs) (fmt : String) (args : List PrintArg) :
    SameStore fs (fs.printf fmt args) := rfl

/-- Steps that keep the store keep the mount. -/
theorem SameStore.init_eq (h : SameStore fs fs') : fs'.init = fs.init := by rw [h]

/-- Steps that keep the store keep the superblock. -/
theorem SameStore.su_eq (h : SameStore fs fs') : fs'.su = fs.su := by rw [h]

/-- A call that reads changes neither the pointer nor the file system. -/
def ReadOnly (rw : RwFn) : Prop :=
  ∀ (p : ℕ) (sa : ShareArg) (fs : Fs) (r : RwOut), sa.w = false → rw p sa fs = .ok r →
    r.pp = p ∧ r.sa.w = false ∧ r.fs = fs

/-- A loop over pointers that only reads changes nothing. -/
theorem readOnly_loop {rw : ℕ → RwFn} (hrw : ∀ i, ReadOnly (rw i)) {i : ℕ} {ps : List ℕ} {sa : ShareArg}
    {t : RwLoop} (hw : sa.w = false) (h : rwPtrs rw i ps sa fs = .ok t) :
    t.ptrs = ps ∧ t.sa.w = false ∧ t.fs = fs := by
  induction ps generalizing i sa fs t with
  | nil =>
    cases h
    exact ⟨rfl, hw, rfl⟩
  | cons p ps ih =>
    rw [rwPtrs, bind_eq_ok] at h
    obtain ⟨r, hcall, h⟩ := h
    obtain ⟨hpp, hw', hfs⟩ := hrw i p sa fs r hw hcall
    split at h
    · rw [bind_eq_ok] at h
      obtain ⟨t', hloop, h⟩ := h
      cases h
      obtain ⟨hptrs, hw'', hfs'⟩ := ih hw' hloop
      exact ⟨by rw [hpp, hptrs], hw'', hfs'.trans hfs⟩
    · cases h
      exact ⟨by rw [hpp], hw', hfs⟩

/-- The body of the traversal changes nothing when it reads and the level below does not. -/
theorem readOnly_rwBody {alloc : Allocator} {below : RwFn} (hbelow : ReadOnly below) (l : ℕ) :
    ReadOnly (rwBody alloc below l) := by
  have data (e q : ℕ) (sa : ShareArg) (fs : Fs) (hw : sa.w = false) :
      (rwData e q sa fs).pp = q ∧ (rwData e q sa fs).sa.w = false ∧ (rwData e q sa fs).fs = fs := by
    simp [rwData, hw]
  intro p sa fs r hw h
  rw [rwBody] at h
  split at h
  · cases h
    exact ⟨rfl, hw, rfl⟩
  · rw [if_neg (by simp [hw])] at h
    split at h
    · rename_i hp
      cases h
      exact ⟨hp.symm, hw, rfl⟩
    · split at h
      · cases h
        exact data _ _ _ _ hw
      · rw [rwIndirect, bind_eq_ok] at h
        obtain ⟨t, hloop, h⟩ := h
        obtain ⟨hptrs, hw', hfs⟩ := readOnly_loop (fun _ => hbelow) hw hloop
        split at h
        · cases h
          refine ⟨rfl, hw', ?_⟩
          dsimp only
          rw [hptrs, hfs, Block.ofPtrs_ptrs]
          exact fs.diskWrite_diskRead p
        · rw [if_neg (by simp [hw'])] at h
          cases h
          exact ⟨rfl, hw', hfs⟩

/-- A reading traversal changes nothing, whatever the allocator. -/
theorem readOnly_recursiveRw (alloc : Allocator) (l : ℕ) : ReadOnly (recursiveRw alloc l) := by
  induction l with
  | zero =>
    apply readOnly_rwBody
    intro p sa fs r hw h
    cases h
    exact ⟨rfl, hw, rfl⟩
  | succ l ih => exact readOnly_rwBody ih (l + 1)

/-- An inode is read without a message. -/
theorem readInode_some {di : Dinode} (h : readInode fs inum = (some di, fs')) : fs' = fs := by
  rw [readInode, rwInode] at h
  split at h
  · cases h
  · split at h
    · cases h
    · cases h
      rfl

/-- Reading an inode keeps the store. -/
theorem sameStore_readInode (fs : Fs) (inum : ℕ) : SameStore fs (readInode fs inum).2 := by
  rw [readInode, rwInode]
  split
  · exact SameStore.printf _ _ _
  · split
    · exact SameStore.printf _ _ _
    · exact SameStore.refl fs

/-- `fs_read` changes nothing but the messages. -/
theorem sameStore_fsRead {buf : Memory} {sz : ℤ} {off : ℕ} {r : ℤ × Memory × Fs}
    (h : fsRead fs inum buf sz off = .ok r) : SameStore fs r.2.2 := by
  rw [fsRead, inodeRw] at h
  dsimp only at h
  split at h
  · cases h
    exact SameStore.printf _ _ _
  · split at h
    · cases h
      exact SameStore.printf _ _ _
    · have hread := sameStore_readInode fs inum
      split at h
      · rename_i hdi
        cases h
        rwa [hdi] at hread
      · rename_i hdi
        rw [hdi] at hread
        split at h
        · cases h
          exact hread
        · rw [bind_eq_ok] at h
          obtain ⟨t, hloop, h⟩ := h
          cases h
          have hfs := (readOnly_loop (fun i => readOnly_recursiveRw bitmapAlloc (getIlevel i)) rfl
            hloop).2.2
          dsimp only
          rwa [hfs]

/-! ## Lookups that return

A read that fails prints a message, but in a lookup it leads to `panic()`. -/

/-- A read that has not failed leaves everything as it is. -/
theorem fsRead_keeps {buf : Memory} {sz : ℤ} {off : ℕ} {r : ℤ × Memory × Fs}
    (h : fsRead fs inum buf sz off = .ok r) (hret : r.1 ≠ -1) : r.2.2 = fs := by
  rw [fsRead, inodeRw] at h
  dsimp only at h
  split at h
  · cases h
    exact absurd rfl hret
  · split at h
    · cases h
      exact absurd rfl hret
    · split at h
      · cases h
        exact absurd rfl hret
      · rename_i hdi
        have hfs := readInode_some hdi
        subst hfs
        split at h
        · cases h
          rfl
        · rw [bind_eq_ok] at h
          obtain ⟨t, hloop, h⟩ := h
          cases h
          exact (readOnly_loop (fun i => readOnly_recursiveRw bitmapAlloc (getIlevel i)) rfl hloop).2.2

/-- The search through a directory changes nothing. -/
theorem dirLookupFrom_keeps {name : List UInt8} {off n : ℕ} {r : ℕ × Fs}
    (h : dirLookupFrom inum name off n fs = .ok r) : r.2 = fs := by
  induction n generalizing off fs with
  | zero =>
    cases h
    rfl
  | succ n ih =>
    rw [dirLookupFrom, bind_eq_ok] at h
    obtain ⟨o, hread, h⟩ := h
    split at h
    · cases h
    · rename_i hfull
      have hsame := fsRead_keeps hread (by rw [not_not.mp hfull]; decide)
      dsimp only at h
      split at h
      · cases h
        exact hsame
      · exact (ih h).trans hsame

/-- `dir_lookup` changes nothing. -/
theorem dirLookup_keeps {name : List UInt8} {r : ℕ × Fs} (h : dirLookup fs inum name = .ok r) :
    r.2 = fs := by
  rw [dirLookup] at h
  split at h
  · cases h
  · rename_i hdi
    have hfs := readInode_some hdi
    subst hfs
    split at h
    · cases h
      rfl
    · exact dirLookupFrom_keeps h

/-- Following names changes nothing. -/
theorem lookupNames_keeps {path : List UInt8} {r : ℕ × Fs} (h : lookupNames inum path fs = .ok r) :
    r.2 = fs := by
  fun_induction lookupNames inum path fs with
  | case1 =>
    cases h
    rfl
  | case2 =>
    cases h
    rfl
  | case3 => cases h
  | case4 inum c path fs name rest hcopy hlen ih =>
    rw [bind_eq_ok] at h
    obtain ⟨o, hdir, h⟩ := h
    have hsame := dirLookup_keeps hdir
    split at h
    · cases h
      exact hsame
    · exact (ih o h).trans hsame

/-- `fs_lookup` changes nothing. -/
theorem fsLookup_keeps {path : Option CString} {r : ℕ × Fs} (h : fsLookup fs path = .ok r) :
    r.2 = fs := by
  cases path with
  | none =>
    cases h
    rfl
  | some path =>
    simp only [fsLookup] at h
    split at h
    · cases h
      rfl
    · split at h
      · cases h
        rfl
      · split at h
        · cases h
          rfl
        · exact lookupNames_keeps h

/-- `dir_lookup` keeps the store. -/
theorem sameStore_dirLookup {name : List UInt8} {r : ℕ × Fs} (h : dirLookup fs inum name = .ok r) :
    SameStore fs r.2 := by
  rw [dirLookup_keeps h]
  exact SameStore.refl fs

/-- `fs_lookup` keeps the store. -/
theorem sameStore_fsLookup {path : Option CString} {r : ℕ × Fs} (h : fsLookup fs path = .ok r) :
    SameStore fs r.2 := by
  rw [fsLookup_keeps h]
  exact SameStore.refl fs

/-- Steps that keep the store keep the disk and the superblock. -/
theorem SameStore.disk_su_eq (h : SameStore fs fs') : fs'.disk = fs.disk ∧ fs'.su = fs.su := by
  rw [h]
  exact ⟨rfl, rfl⟩

/-- Reading a file, reading an inode and looking up a path leave every block and the superblock as they
are, whatever the disk holds. -/
theorem readers_keep_disk (fs : Fs) :
    (∀ inum buf sz off r, fsRead fs inum buf sz off = .ok r → r.2.2.disk = fs.disk ∧ r.2.2.su = fs.su) ∧
    (∀ inum, (fsGeti fs inum).2.disk = fs.disk ∧ (fsGeti fs inum).2.su = fs.su) ∧
    ∀ path r, fsLookup fs path = .ok r → r.2.disk = fs.disk ∧ r.2.su = fs.su := by
  refine ⟨?_, ?_, ?_⟩
  · intro inum buf sz off r h
    exact (sameStore_fsRead h).disk_su_eq
  · intro inum
    exact (sameStore_readInode fs inum).disk_su_eq
  · intro path r h
    exact (sameStore_fsLookup h).disk_su_eq

/-! ## Directories without holes -/

/-- A directory is an array of entries inside mapped blocks. -/
structure GoodDir (fs : Fs) (inum : ℕ) : Prop where
  size_mod : (fs.dinode inum).size % 16 = 0
  size_le : (fs.dinode inum).size ≤ maxBytes
  mapped : ∀ k, 512 * k < (fs.dinode inum).size → fs.fileBlock inum k ≠ 0

/-- Entry `i` of a directory. -/
def Fs.dirent (fs : Fs) (inum i : ℕ) : Dirent := .ofBytes (fs.content inum) (16 * i)

/-- The entries of a directory. -/
def Fs.dirents (fs : Fs) (inum : ℕ) : List Dirent :=
  (List.range ((fs.dinode inum).size / 16)).map (fs.dirent inum)

/-- The inode number that a list of entries holds for a name, 0 if there is none. -/
def findName (name : List UInt8) (des : List Dirent) : ℕ :=
  ((des.find? fun de => strcmp name de.name = 0).map Dirent.inum).getD nullInum

/-- The inode with a name in a directory, 0 if there is none or the inode is no directory. -/
def Fs.child (fs : Fs) (inum : ℕ) (name : List UInt8) : ℕ :=
  if (fs.dinode inum).type = tDir then findName name (fs.dirents inum) else nullInum

/-- The inode that a sequence of names leads to. -/
def Fs.resolve (fs : Fs) : (inum : ℕ) → List (List UInt8) → ℕ
  | inum, [] => inum
  | inum, name :: names =>
    if fs.child inum name = nullInum then nullInum else fs.resolve (fs.child inum name) names

/-- Every directory is without holes, and its entries refer to inodes of the table other than 0. -/
structure GoodDirs (fs : Fs) : Prop where
  dirs : ∀ i < 200, (fs.dinode i).type = tDir → GoodDir fs i
  inums : ∀ i < 200, (fs.dinode i).type = tDir → ∀ de ∈ fs.dirents i, de.inum ≠ 0 ∧ de.inum < 200

section Find

variable (hinit : fs.init = true) (hlayout : fs.su.Layout)

include hinit hlayout

/-- Reading an entry. -/
theorem fsRead_dirent (hi : inum < 200) (hdir : GoodDir fs inum) {i : ℕ}
    (hlt : i < (fs.dinode inum).size / 16) (buf : Memory) :
    ∃ mem, fsRead fs inum buf direntSize (16 * i) = .ok ((direntSize : ℤ), mem, fs) ∧
      Dirent.ofBytes mem 0 = fs.dirent inum i := by
  have hsize := hdir.size_le
  simp only [maxBytes, maxBlocks] at hsize
  have hn : readSize fs inum 16 (16 * i) = 16 := by
    rw [readSize]
    omega
  have hread := fsRead_spec hinit hlayout hi buf (show 16 < 2147483648 by decide)
    (show _ ∨ 16 * i < maxBytes ∧ _ from .inl hdir.size_le)
  rw [hn] at hread
  refine ⟨_, hread, ?_⟩
  apply Dirent.ofBytes_congr
  intro j hj
  rw [if_pos (by omega), Nat.zero_add]
  apply out_of_mapped
  · simp only [ReadRequest.sblock, readRequest, maxBlocks]
    omega
  · exact hdir.mapped _ (by simp only [ReadRequest.sblock, readRequest]; omega)

/-- The search through the rest of a directory finds the first entry with the name in the rest. -/
theorem dirLookupFrom_eq (hi : inum < 200) (hdir : GoodDir fs inum) (name : List UInt8) {i n : ℕ}
    (hn : i + n = (fs.dinode inum).size / 16) : dirLookupFrom inum name (16 * i) n fs =
      .ok (findName name ((List.range' i n).map (fs.dirent inum)), fs) := by
  induction n generalizing i with
  | zero => rfl
  | succ n ih =>
    have hsize := hdir.size_le
    simp only [maxBytes, maxBlocks] at hsize
    obtain ⟨mem, hread, hde⟩ := fsRead_dirent hinit hlayout hi hdir (show i < _ by omega) (fun _ => 0)
    rw [dirLookupFrom, hread, ok_bind, if_neg (by simp), List.range'_succ, List.map_cons]
    dsimp only
    rw [hde]
    by_cases hname : strcmp name (fs.dirent inum i).name = 0
    · rw [if_pos hname, findName, List.find?_cons_of_pos (by simpa using hname)]
      rfl
    · rw [if_neg hname, show u32 (16 * i + direntSize) = 16 * (i + 1) by
        rw [u32_of_lt (by simp only [direntSize]; omega)]; rfl, ih (by omega), findName, findName,
        List.find?_cons_of_neg (by simpa using hname)]

/-- `dir_lookup` finds the child of that name. -/
theorem dirLookup_eq (hi : inum < 200) (hdir : (fs.dinode inum).type = tDir → GoodDir fs inum)
    (name : List UInt8) : dirLookup fs inum name = .ok (fs.child inum name, fs) := by
  rw [dirLookup, readInode_eq hinit hlayout hi]
  dsimp only
  rw [Fs.child]
  by_cases htype : (fs.dinode inum).type = tDir
  · have h := dirLookupFrom_eq hinit hlayout hi (hdir htype) name (Nat.zero_add _)
    rw [if_neg (not_not_intro htype), if_pos htype, Fs.dirents, List.range_eq_range']
    exact h
  · rw [if_pos htype, if_neg htype]

omit hinit hlayout in
/-- Children are inodes of the table. -/
theorem child_lt (hgood : GoodDirs fs) (hi : inum < 200) (name : List UInt8) :
    fs.child inum name < 200 := by
  rw [Fs.child]
  split
  · rename_i htype
    rw [findName]
    cases h : (fs.dirents inum).find? fun de => strcmp name de.name = 0 with
    | none => decide
    | some de => exact (hgood.inums inum hi htype de (List.mem_of_find?_eq_some h)).2
  · decide

omit hinit hlayout in
/-- Names lead to an inode of the table. -/
theorem resolve_lt (hgood : GoodDirs fs) (hi : inum < 200) (names : List (List UInt8)) :
    fs.resolve inum names < 200 := by
  induction names generalizing inum with
  | nil => exact hi
  | cons name names ih =>
    rw [Fs.resolve]
    split
    · decide
    · exact ih (child_lt hgood hi name)

/-- The loop of `fs_lookup` follows the names of the path. -/
theorem lookupNames_eq (hgood : GoodDirs fs) (hi : inum < 200) {path : List UInt8}
    (hshort : ∀ name ∈ pathNames path, name.length < maxName) :
    lookupNames inum path fs = .ok (fs.resolve inum (pathNames path), fs) := by
  induction path using pathNames.induct generalizing inum with
  | case1 => rw [lookupNames, pathNames_nil, Fs.resolve]
  | case2 c path ih =>
    rw [pathNames_of_ne_nil (List.cons_ne_nil c path)] at hshort ⊢
    have hlen := hshort _ List.mem_cons_self
    rw [lookupNames]
    split
    · rename_i hcopy
      rw [copyName_of_le (by omega)] at hcopy
      cases hcopy
    · rename_i name rest hcopy
      obtain ⟨rfl, rfl⟩ := Prod.mk.inj (copyName_eq_some hcopy)
      rw [if_neg (Nat.not_le.mpr hlen), dirLookup_eq hinit hlayout hi (hgood.dirs inum hi), ok_bind,
        Fs.resolve]
      dsimp only
      split
      · rfl
      · exact ih (child_lt hgood hi _) fun name hname => hshort name (List.mem_cons_of_mem _ hname)

/-- `fs_lookup` of an absolute path that fits the path buffer, and whose names fit the name buffer. -/
theorem fsLookup_of_pathNames (hgood : GoodDirs fs) {path : CString} {tail : List UInt8}
    (hpath : path.bytes = slash :: tail) (hlen : path.bytes.length < maxPath)
    (hshort : ∀ name ∈ pathNames tail, name.length < maxName) :
    fsLookup fs (some path) = .ok (fs.resolve rootInum (pathNames tail), fs) := by
  simp only [fsLookup]
  rw [if_neg (by simp only [maxPath] at hlen ⊢; omega), hpath]
  dsimp only
  rw [if_neg (by simp)]
  exact lookupNames_eq hinit hlayout hgood (by decide) hshort

/-- `fs_lookup` of an absolute path that fits the path buffer. -/
theorem fsLookup_eq (hgood : GoodDirs fs) {path : CString} {tail : List UInt8}
    (hpath : path.bytes = slash :: tail) (hlen : path.bytes.length < maxPath)
    (hshort : path.ShortNames) :
    fsLookup fs (some path) = .ok (fs.resolve rootInum (pathNames tail), fs) := by
  apply fsLookup_of_pathNames hinit hlayout hgood hpath hlen
  intro name hname
  obtain ⟨hpart, hfree⟩ := of_mem_pathNames hname
  exact hshort name (hpath ▸ hpart.trans (List.suffix_cons slash tail).isInfix) hfree

/-- `fs_lookup` returns when the components of the path fit the name buffer. -/
theorem fsLookup_returns (hgood : GoodDirs fs) {path : CString} (hshort : path.ShortNames) :
    ∃ m < 200, fsLookup fs (some path) = .ok (m, fs) := by
  by_cases hlen : path.bytes.length < maxPath
  · cases hbytes : path.bytes with
    | nil => exact ⟨nullInum, by decide, by simp only [fsLookup, hbytes]; rfl⟩
    | cons c tail =>
      by_cases hc : c = slash
      · exact ⟨_, resolve_lt hgood (by decide) _,
          fsLookup_eq hinit hlayout hgood (hc ▸ hbytes) hlen hshort⟩
      · refine ⟨nullInum, by decide, ?_⟩
        simp only [fsLookup, hbytes]
        rw [if_pos hc]
        split <;> rfl
  · refine ⟨nullInum, by decide, ?_⟩
    simp only [fsLookup]
    rw [if_pos (by simp only [maxPath] at hlen ⊢; omega)]

omit hinit hlayout in
/-- A lookup that succeeds was given an absolute path that fits the path buffer. -/
theorem absolute_of_fsLookup {path : CString} {r : ℕ × Fs} (h : fsLookup fs (some path) = .ok r)
    (hr : r.1 ≠ nullInum) : path.bytes.length < maxPath ∧ ∃ tail, path.bytes = slash :: tail := by
  simp only [fsLookup] at h
  split at h
  · cases h
    exact absurd rfl hr
  · rename_i hlen
    refine ⟨by simp only [maxPath] at hlen ⊢; omega, ?_⟩
    split at h
    · cases h
      exact absurd rfl hr
    · rename_i c tail hbytes
      split at h
      · cases h
        exact absurd rfl hr
      · rename_i hc
        exact ⟨tail, by rw [hbytes, not_not.mp hc]⟩

omit hinit hlayout in
/-- The loop of `fs_lookup` finds an inode only when all names fit the name buffer. -/
theorem short_of_lookupNames {path : List UInt8} {r : ℕ × Fs} (h : lookupNames inum path fs = .ok r)
    (hr : r.1 ≠ nullInum) : ∀ name ∈ pathNames path, name.length < maxName := by
  fun_induction lookupNames inum path fs with
  | case1 =>
    rw [pathNames_nil]
    exact fun name hname => absurd hname List.not_mem_nil
  | case2 =>
    cases h
    exact absurd rfl hr
  | case3 => cases h
  | case4 inum c path fs name rest hcopy hlen ih =>
    obtain ⟨rfl, rfl⟩ := Prod.mk.inj (copyName_eq_some hcopy)
    rw [bind_eq_ok] at h
    obtain ⟨o, -, h⟩ := h
    rw [pathNames_of_ne_nil (List.cons_ne_nil c path), List.forall_mem_cons]
    split at h
    · cases h
      exact absurd rfl hr
    · exact ⟨Nat.not_le.mp hlen, ih o h⟩

/-- A lookup that finds an inode follows the names of its path. -/
theorem resolve_of_fsLookup (hgood : GoodDirs fs) {path : CString} {n : ℕ} {fs' : Fs}
    (h : fsLookup fs (some path) = .ok (n, fs')) (hn : n ≠ nullInum) :
    ∃ tail, path.bytes = slash :: tail ∧ path.bytes.length < maxPath ∧
      (∀ name ∈ pathNames tail, name.length < maxName) ∧ fs.resolve rootInum (pathNames tail) = n := by
  obtain ⟨hlen, tail, hpath⟩ := absolute_of_fsLookup h hn
  have hloop := h
  simp only [fsLookup] at hloop
  rw [if_neg (by simp only [maxPath] at hlen ⊢; omega), hpath] at hloop
  dsimp only at hloop
  rw [if_neg (by simp)] at hloop
  have hshort := short_of_lookupNames hloop hn
  rw [fsLookup_of_pathNames hinit hlayout hgood hpath hlen hshort] at h
  cases h
  exact ⟨tail, hpath, hlen, hshort, rfl⟩

end Find

/-- The last name of a path is looked up in what the others lead to. -/
theorem resolve_append {names : List (List UInt8)} (h : fs.resolve inum names ≠ nullInum)
    (name : List UInt8) : fs.resolve inum (names ++ [name]) = fs.child (fs.resolve inum names) name := by
  induction names generalizing inum with
  | nil =>
    rw [List.nil_append, Fs.resolve, Fs.resolve, Fs.resolve]
    split
    · rename_i hnull
      exact hnull.symm
    · rfl
  | cons first names ih =>
    rw [Fs.resolve] at h
    rw [List.cons_append, Fs.resolve, Fs.resolve]
    split at h
    · exact absurd rfl h
    · rename_i hchild
      rw [if_neg hchild, if_neg hchild, ih h]

/-- A path that leads somewhere still does when no child has got lost. -/
theorem resolve_mono (hgood : GoodDirs fs)
    (hchild : ∀ i < 200, ∀ name, fs.child i name ≠ nullInum → fs'.child i name = fs.child i name)
    (hi : inum < 200) {names : List (List UInt8)} (h : fs.resolve inum names ≠ nullInum) :
    fs'.resolve inum names = fs.resolve inum names := by
  induction names generalizing inum with
  | nil => rfl
  | cons name names ih =>
    rw [Fs.resolve] at h ⊢
    rw [Fs.resolve]
    split at h
    · exact absurd rfl h
    · rename_i hne
      rw [hchild inum hi name hne, if_neg hne, if_neg hne, ih (child_lt hgood hi name) h]

end Hobby386
