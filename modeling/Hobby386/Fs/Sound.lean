import Hobby386.Fs.Mknod

/-!
# Sound file systems

The invariant behind every lookup: blocks are owned soundly, directories have no holes, and
their entries refer to the inode table. Writes to regular files leave all directories as they
are; `fs_mknod` appends at most one entry to one directory.
-/

namespace Hobby386

open PointerForest

variable {fs fs' : Fs}

/-- The invariant that every call preserves, whatever its paths and types. -/
structure Sound (fs : Fs) : Prop where
  wellFormed : WellFormed fs
  dirs : GoodDirs fs
  null : (fs.dinode nullInum).type ≠ 0
  root : (fs.dinode rootInum).type = tDir

/-! ## Directories that stay as they are -/

/-- Directory `i` is the same in both states. -/
structure SameDir (fs fs' : Fs) (i : ℕ) : Prop where
  size : (fs'.dinode i).size = (fs.dinode i).size
  fileBlock : ∀ b, fs'.fileBlock i b = fs.fileBlock i b
  content : ∀ y, fs'.content i y = fs.content i y

variable {i : ℕ}

/-- A directory that is the same has the same entries. -/
theorem SameDir.dirents_eq (h : SameDir fs fs' i) : fs'.dirents i = fs.dirents i := by
  rw [Fs.dirents, Fs.dirents, h.size]
  apply List.map_congr_left
  intro e _
  exact Dirent.ofBytes_congr fun j _ => h.content _

/-- A directory that is the same stays good. -/
theorem SameDir.goodDir (h : SameDir fs fs' i) (hdir : GoodDir fs i) : GoodDir fs' i where
  size_mod := by rw [h.size]; exact hdir.size_mod
  size_le := by rw [h.size]; exact hdir.size_le
  mapped := fun k hk => by
    rw [h.fileBlock]
    exact hdir.mapped k (by rwa [h.size] at hk)

/-- Nothing has changed. -/
theorem SameDir.refl (fs : Fs) (i : ℕ) : SameDir fs fs i := ⟨rfl, fun _ => rfl, fun _ => rfl⟩

/-- A write to a regular file leaves every directory as it is. -/
theorem FileWritten.sameDir {inum n : ℕ} {c : WriteRequest} (hwf : WellFormed fs)
    (halloc : fs.Allocated inum) (h : FileWritten fs inum c n fs') (hi : i < 200) (hne : i ≠ inum)
    (hused : (fs.dinode i).type ≠ 0) : SameDir fs fs' i where
  size := by rw [h.others i hi hne]
  fileBlock := h.fileBlock_other hwf halloc hi hne hused
  content := h.content_other hwf halloc hi hne hused

section Write

variable {inum n : ℕ} {c : WriteRequest} (hreg : (fs.dinode inum).type = tReg) (hinum : inum < 200)

include hreg

/-- A directory is not a regular file. -/
theorem ne_of_dir (hdir : (fs.dinode i).type = tDir) : i ≠ inum := by
  rintro rfl
  rw [hreg] at hdir
  exact absurd hdir (by decide)

include hinum

/-- A regular file is in use. -/
theorem allocated_of_reg (hwf : WellFormed fs) : fs.Allocated inum :=
  ⟨by rw [hwf.layout.ninodes]; exact hinum, by rw [hreg]; decide⟩

/-- A write to a regular file keeps every directory. -/
theorem FileWritten.sameDir_of_dir (hwf : WellFormed fs) (h : FileWritten fs inum c n fs') (hi : i < 200)
    (hdir : (fs'.dinode i).type = tDir) : (fs.dinode i).type = tDir ∧ SameDir fs fs' i := by
  rw [h.type_eq hi] at hdir
  exact ⟨hdir, h.sameDir hwf (allocated_of_reg hreg hinum hwf) hi (ne_of_dir hreg hdir)
    (by rw [hdir]; decide)⟩

/-- A write to a regular file keeps the file system sound. -/
theorem Sound.write (hsound : Sound fs) (h : FileWritten fs inum c n fs') : Sound fs' where
  wellFormed := h.wellFormed hsound.wellFormed (allocated_of_reg hreg hinum hsound.wellFormed)
  dirs := by
    constructor
    · intro i hi hdir
      obtain ⟨hold, hsame⟩ := h.sameDir_of_dir hreg hinum hsound.wellFormed hi hdir
      exact hsame.goodDir (hsound.dirs.dirs i hi hold)
    · intro i hi hdir
      obtain ⟨hold, hsame⟩ := h.sameDir_of_dir hreg hinum hsound.wellFormed hi hdir
      rw [hsame.dirents_eq]
      exact hsound.dirs.inums i hi hold
  null := by rw [h.type_eq (by decide)]; exact hsound.null
  root := by rw [h.type_eq (by decide)]; exact hsound.root

end Write

/-! ## A new entry -/

section Link

variable {type n x k m : ℕ} {name : CString} (hsound : Sound fs) (hn : n < 200)
  (hdir : (fs.dinode n).type = tDir) (hx : x < 200) (hfree : (fs.dinode x).type = 0)
  (h : LinkEffect fs type n name x k m fs')

include h in
/-- The new inode has no contents. -/
theorem LinkEffect.new_size : (fs'.dinode x).size = 0 := by
  rcases h.outcome with ⟨-, -, hdi⟩ | ⟨-, -, hdi⟩ <;> rw [hdi] <;> rfl

include h in
/-- A directory after the call is the parent, the new inode, or has been there before. -/
theorem LinkEffect.dir_cases (hi : i < 200) (hidir : (fs'.dinode i).type = tDir) :
    i = n ∨ (i = x ∧ (fs'.dinode i).size = 0) ∨
      (i ≠ x ∧ (fs.dinode i).type = tDir ∧ SameDir fs fs' i) := by
  by_cases hin : i = n
  · exact .inl hin
  · by_cases hix : i = x
    · exact .inr (.inl ⟨hix, by rw [hix]; exact h.new_size⟩)
    · have hdinode := h.others i hi hin hix
      rw [hdinode] at hidir
      have hused : (fs.dinode i).type ≠ 0 := by rw [hidir]; decide
      exact .inr (.inr ⟨hix, hidir, by rw [hdinode], h.fileBlock_others i hi hin hused,
        h.content_others i hi hin hused⟩)

include hsound hn hdir h

/-- The entry is written completely or not at all. -/
theorem LinkEffect.written : k = 0 ∨ k = 16 := h.whole (hsound.dirs.dirs n hn hdir).size_mod

/-- The entries of the parent after the call. -/
theorem LinkEffect.dirents_parent (hx : x < 200) :
    fs'.dirents n = fs.dirents n ++ if k = 16 then [newDirent x name] else [] := by
  have hgood := hsound.dirs.dirs n hn hdir
  have hmod := hgood.size_mod
  have hold : (List.range ((fs.dinode n).size / 16)).map (fs'.dirent n) = fs.dirents n := by
    apply List.map_congr_left
    intro e he
    rw [List.mem_range] at he
    refine Dirent.ofBytes_congr fun j hj => h.parent_old _ (by omega) ?_
    exact hgood.mapped _ (by omega)
  rcases h.written hsound hn hdir with rfl | rfl
  · rw [Fs.dirents, h.parent, if_neg (by decide), List.append_nil]
    exact hold
  · have hlast : fs'.dirent n ((fs.dinode n).size / 16) = newDirent x name := by
      apply Dirent.ofBytes_bytes
      · simp only [newDirent]
        omega
      · simp [newDirent]
      · intro j hj
        rw [show 16 * ((fs.dinode n).size / 16) + j = (fs.dinode n).size + j by omega]
        exact (h.parent_new j hj).2
    rw [Fs.dirents, h.parent, if_pos rfl,
      show ((fs.dinode n).size + 16) / 16 = (fs.dinode n).size / 16 + 1 by omega, List.range_succ,
      List.map_append, hold, List.map_singleton, hlast]

/-- The parent has no holes after the call. -/
theorem LinkEffect.goodDir_parent : GoodDir fs' n := by
  have hgood := hsound.dirs.dirs n hn hdir
  have hmod := hgood.size_mod
  have hle := hgood.size_le
  have hk := h.written hsound hn hdir
  refine ⟨?_, ?_, fun b hb => ?_⟩
  · rw [h.parent]
    simp only
    omega
  · rw [h.parent]
    rcases hk with rfl | rfl
    · exact hle
    · have hmap := (h.parent_new 15 (by decide)).1
      have hlt := fs'.lt_of_fileBlock hmap
      simp only [maxBytes, maxBlocks] at hlt hle ⊢
      omega
  · rw [h.parent] at hb
    dsimp only at hb
    rcases Nat.lt_or_ge (512 * b) (fs.dinode n).size with hlt | hge
    · have hold := hgood.mapped b hlt
      rw [h.parent_kept b hold]
      exact hold
    · have hnew := (h.parent_new (512 * b - (fs.dinode n).size) (by omega)).1
      rwa [show ((fs.dinode n).size + (512 * b - (fs.dinode n).size)) / 512 = b by omega] at hnew

include hx hfree

/-- Linking a new inode keeps the file system sound. -/
theorem Sound.link : Sound fs' where
  wellFormed := h.wellFormed
  dirs := by
    have hxn : 0 < x := by
      rcases Nat.eq_zero_or_pos x with rfl | hpos
      · exact absurd hfree hsound.null
      · exact hpos
    constructor
    · intro i hi hidir
      rcases h.dir_cases hi hidir with rfl | ⟨rfl, hsize⟩ | ⟨-, hold, hsame⟩
      · exact h.goodDir_parent hsound hn hdir
      · exact ⟨by rw [hsize], by rw [hsize]; exact Nat.zero_le _, fun b hb => by rw [hsize] at hb; omega⟩
      · exact hsame.goodDir (hsound.dirs.dirs i hi hold)
    · intro i hi hidir de hde
      rcases h.dir_cases hi hidir with rfl | ⟨rfl, hsize⟩ | ⟨-, hold, hsame⟩
      · rw [h.dirents_parent hsound hi hdir hx, List.mem_append] at hde
        rcases hde with hde | hde
        · exact hsound.dirs.inums i hi hdir de hde
        · split at hde
          · rw [List.mem_singleton.mp hde]
            exact ⟨hxn.ne', hx⟩
          · simp at hde
      · rw [Fs.dirents, hsize] at hde
        simp at hde
      · rw [hsame.dirents_eq] at hde
        exact hsound.dirs.inums i hi hold de hde
  null := by
    have hne : nullInum ≠ x := by rintro rfl; exact hsound.null hfree
    by_cases hn0 : nullInum = n
    · rw [hn0, h.parent, hdir]
      decide
    · rw [h.others nullInum (by decide) hn0 hne]
      exact hsound.null
  root := by
    have hne : rootInum ≠ x := by
      rintro rfl
      rw [hsound.root] at hfree
      exact absurd hfree (by decide)
    by_cases hn1 : rootInum = n
    · rw [hn1, h.parent, hdir]
    · rw [h.others rootInum (by decide) hn1 hne]
      exact hsound.root

end Link

/-- Soundness only depends on the store. -/
theorem Sound.of_sameStore (h : SameStore fs fs') (hsound : Sound fs) : Sound fs' := by
  rw [h]
  exact ⟨hsound.wellFormed.of_sameStore rfl,
    ⟨fun i hi hdir => ⟨(hsound.dirs.dirs i hi hdir).size_mod, (hsound.dirs.dirs i hi hdir).size_le,
      (hsound.dirs.dirs i hi hdir).mapped⟩, hsound.dirs.inums⟩, hsound.null, hsound.root⟩

/-! ## Names that are not there -/

/-- A directory that has no child of a name has no entry of that name. -/
theorem Sound.find?_eq_none (hsound : Sound fs) {n : ℕ} (hn : n < 200) (hdir : (fs.dinode n).type = tDir)
    {name : List UInt8} (hchild : fs.child n name = nullInum) :
    ((fs.dirents n).find? fun de => strcmp name de.name = 0) = none := by
  rw [Fs.child, if_pos hdir, findName] at hchild
  cases hsome : (fs.dirents n).find? fun de => strcmp name de.name = 0 with
  | none => rfl
  | some de =>
    rw [hsome] at hchild
    exact absurd hchild (hsound.dirs.inums n hn hdir de (List.mem_of_find?_eq_some hsome)).1

/-- The name that `fs_mknod` has checked is not in the directory. -/
theorem MknodChecks.child_eq {path name parent : CString} {n : ℕ} (hsound : Sound fs)
    (h : MknodChecks fs path name parent n) : fs.child n name.bytes = nullInum := by
  obtain ⟨fs₀, r, hsame, hlookup, hnull⟩ := h.fresh
  have hsound₀ := hsound.of_sameStore hsame
  rw [dirLookup_eq hsound₀.wellFormed.init hsound₀.wellFormed.layout h.lt
    (hsound₀.dirs.dirs n h.lt)] at hlookup
  cases hlookup
  rw [hsame] at hnull
  exact hnull

/-- The root path leads to the root directory. -/
theorem Sound.lookup_root (hsound : Sound fs) {path : CString} (hpath : path.bytes = [slash]) :
    fsLookup fs (some path) = .ok (rootInum, fs) := by
  have hshort : path.ShortNames := fun name hpart _ => hpart.length_le.trans_lt (by rw [hpath]; decide)
  rw [fsLookup_eq hsound.wellFormed.init hsound.wellFormed.layout hsound.dirs hpath
    (by rw [hpath]; decide) hshort, pathNames_nil, Fs.resolve]

/-- What a call of `fs_mknod` for an entry of the root directory did when it returned an inode. -/
theorem Sound.mknod_root (hsound : Sound fs) {path name parent : CString} {type m : ℕ} {fs' : Fs}
    (hname : getname (some path) = .ok (some (name, parent))) (hparent : parent.bytes = [slash])
    (h : fsMknod fs (some path) type = .ok (m, fs')) (hm : m ≠ nullInum) :
    m < 200 ∧ (fs.dinode m).type = 0 ∧ LinkEffect fs type rootInum name m 16 m fs' := by
  obtain ⟨p, name', parent', n, hp, -, hlt, hfree, hchecks, heffect, -⟩ :=
    fsMknod_linked hsound.wellFormed hsound.null h hm
  cases hp
  have hsplit := hchecks.getname
  rw [hname] at hsplit
  cases hsplit
  obtain ⟨r, hlookup, rfl⟩ := hchecks.lookup
  rw [hsound.lookup_root hparent] at hlookup
  cases hlookup
  exact ⟨hlt, hfree, heffect⟩

end Hobby386
