import Hobby386.Fs.MknodRoom
import Hobby386.Fs.Naming

/-!
# Failed creations

When `fs_mknod` returns no inode, everything in use is as it was. The one failure that comes after an
update is a directory that cannot grow. A directory has at most one entry for each inode, so it never
leaves its direct blocks, and its next entry takes at most one block. The write fails only when no block
is free, and then it changes no pointer.
-/

namespace Hobby386

open PointerForest Runs

variable {fs fs' fs₀ : Fs} {inum : ℕ}

/-! ## The next entry of a directory -/

/-- A directory has at most as many entries as there are inodes. -/
theorem Tree.length_dirents_le (htree : Tree fs) (hgood : GoodDirs fs) {d : ℕ} (hd : d < 200)
    (hdir : (fs.dinode d).type = tDir) : (fs.dirents d).length ≤ 200 := by
  have hlt : ∀ i ∈ (fs.dirents d).map Dirent.inum, i < 200 := by
    intro i hi
    obtain ⟨de, hde, rfl⟩ := List.mem_map.mp hi
    exact (hgood.inums d hd hdir de hde).2
  have hnodup : ((fs.dirents d).map Dirent.inum).Nodup := by
    rw [List.nodup_iff_count_le_one]
    intro i
    by_cases hi : i ∈ (fs.dirents d).map Dirent.inum
    · have hfrom : fs.linksFrom d i ≤ fs.links i := Finset.single_le_sum (f := fun d => fs.linksFrom d i)
        (fun _ _ => Nat.zero_le _) (Finset.mem_range.mpr hd)
      rw [Fs.linksFrom, if_pos hdir, htree.links i (hlt i hi)] at hfrom
      exact hfrom.trans (by split <;> decide)
    · rw [List.count_eq_zero_of_not_mem hi]
      exact Nat.zero_le 1
  have hsub : (fs.dirents d).map Dirent.inum ⊆ List.range 200 :=
    fun i hi => List.mem_range.mpr (hlt i hi)
  simpa using (hnodup.subperm hsub).length_le

/-- The next entry of a directory inside its direct blocks takes at most one block. -/
theorem length_need_dirent_le {d : ℕ} (hgood : GoodDir fs d) (hsize : (fs.dinode d).size ≤ 3200)
    (src : Memory) :
    (fs.need d (writeRequest src 16 (fs.dinode d).size)).length ≤ 1 := by
  have hmod := hgood.size_mod
  have hlen : ((fs.dinode d).ptrs.take 10).length = 10 := by
    rw [List.length_take, (fs.fits_dinode d).length]
    decide
  have hend : u32 ((fs.dinode d).size + 16) / 512 = ((fs.dinode d).size + 16) / 512 := by
    rw [u32_of_lt (by omega)]
  set L := fs.need d (writeRequest src 16 (fs.dinode d).size) with hL
  have hrow : L = need Block.ptrs 128 fs.disk ((fs.dinode d).size / 512)
      (((fs.dinode d).size + 16) / 512) (row 0 ((fs.dinode d).ptrs.take 10)) 0 := by
    have hbehind : ((fs.dinode d).size + 16) / 512 < 0 + width 128
        (row 0 ((fs.dinode d).ptrs.take 10)) := by
      rw [width_row, hlen]
      omega
    rw [hL, Fs.need, Dinode.forest_direct, need_append]
    simp only [writeRequest, hend]
    rw [need_of_lt hbehind, List.append_nil]
  have hnodup : L.Nodup := by
    rw [hrow]
    exact (List.Nodup.map (Prod.mk_right_injective 0) List.nodup_range').sublist (need_row_sublist _)
  have hone : ∀ t ∈ L, t = (0, ((fs.dinode d).size + 16) / 512) := by
    rintro ⟨l, k⟩ ht
    have hmem : (l, k) ∈ (List.range' 0 ((fs.dinode d).ptrs.take 10).length).map (Prod.mk 0) :=
      (need_row_sublist _).subset (hrow ▸ ht)
    obtain ⟨k', -, heq⟩ := List.mem_map.mp hmem
    cases heq
    obtain ⟨hhigh, hlow⟩ := need_overlap (hrow ▸ ht)
    have hhole : fs.fileBlock d k = 0 := lookup_of_need Block.ptrs_length ht
    by_contra hne
    have hfirst : k = (fs.dinode d).size / 512 := by
      simp only [Prod.mk.injEq, true_and, pow_zero] at hne hlow hhigh
      omega
    refine hgood.mapped k ?_ hhole
    simp only [Prod.mk.injEq, true_and] at hne hhigh
    omega
  have hrep := List.eq_replicate_of_mem hone
  rw [hrep, List.nodup_replicate] at hnodup
  exact hnodup

/-! ## What a failed creation leaves -/

/-- The bitmap, the inodes in use and their contents are as before. -/
structure Unchanged (fs fs' : Fs) : Prop where
  bitmap : fs'.disk fs.su.sbitmap = fs.disk fs.su.sbitmap
  dinode : ∀ i, fs.Allocated i → fs'.dinode i = fs.dinode i
  content : ∀ i, fs.Allocated i → ∀ x, fs'.content i x = fs.content i x
  allocated : ∀ i, fs'.Allocated i ↔ fs.Allocated i

/-- A call that keeps the store changes nothing in use. -/
theorem SameStore.unchanged (h : SameStore fs fs') : Unchanged fs fs' := by
  rw [h]
  exact ⟨rfl, fun _ _ => rfl, fun _ _ _ => rfl, fun _ => Iff.rfl⟩

/-- Steps in front and behind that keep the store do not matter. -/
theorem Unchanged.of_sameStore {fs₁ fs₂ : Fs} (hfirst : SameStore fs fs₁) (hlast : SameStore fs₂ fs')
    (h : Unchanged fs₁ fs₂) : Unchanged fs fs' := by
  rw [hfirst] at h
  rw [hlast]
  exact ⟨h.bitmap, h.dinode, h.content, h.allocated⟩

/-- Clearing a free inode changes nothing in use. -/
theorem unchanged_setDinode {x : ℕ} (hwf : WellFormed fs) (hx : x < 200)
    (hfree : (fs.dinode x).type = 0) :
    Unchanged fs (fs.setDinode x .zero) := by
  have hlt := hwf.layout.inodeBlock_lt hx
  have hne {i : ℕ} (hi : fs.Allocated i) : i ≠ x := by
    rintro rfl
    exact hi.2 hfree
  constructor
  case bitmap => exact Fs.setDinode_disk_of_ne (by omega)
  case dinode => exact fun i hi => Fs.dinode_setDinode_of_ne (hne hi)
  case content =>
    intro i hi y
    exact content_setDinode hwf hx (hwf.layout.ninodes ▸ hi.1) (hne hi) hi.2 y
  case allocated =>
    intro i
    by_cases hix : i = x
    · subst hix
      have hzero : ((fs.setDinode i .zero).dinode i).type = 0 := by
        rw [Fs.dinode_setDinode Dinode.fits_zero]
        rfl
      exact ⟨fun hi => absurd hzero hi.2, fun hi => absurd hfree hi.2⟩
    · rw [Fs.Allocated, Fs.Allocated, Fs.dinode_setDinode_of_ne hix, Fs.setDinode_su]

/-- When the entry could not be written, everything is as it was. -/
theorem linkInode_unchanged (hsound : Sound fs) (htree : Tree fs) {type n x : ℕ} {name parent : CString}
    (hn : n < 200) (hdir : (fs.dinode n).type = tDir) (hx : x < 200) (hfree : (fs.dinode x).type = 0)
    (htype : type ≤ 3) {r : ℕ × Fs}
    (h : linkInode (fs.setDinode x { Dinode.zero with type := type }) x n
      (fs.dinode n) name parent = .ok r)
    (hfailed : r.1 = nullInum) : Unchanged fs r.2 := by
  have hwf := hsound.wellFormed
  have hne : n ≠ x := ne_of_free hdir hfree
  have hused : (fs.dinode n).type ≠ 0 := by rw [hdir]; decide
  have hgood := hsound.dirs.dirs n hn hdir
  have hsize : (fs.dinode n).size ≤ 3200 := by
    have hentries := htree.length_dirents_le hsound.dirs hn hdir
    rw [Fs.dirents, List.length_map, List.length_range] at hentries
    have hmod := hgood.size_mod
    omega
  obtain ⟨k, fs₂, di, hwrite, hwritten, hfit, hbare, hsame, hout⟩ :=
    linkInode_steps hwf hn hdir hx hfree htype h
  obtain ⟨hwf₁, halloc₁, -⟩ := wellFormed_newInode hwf hn hdir hx hfree htype
  have hwhole := (linkEffect_of_steps hwf hn hdir hx hfree htype hwritten hfit hbare hout).whole
    hgood.size_mod
  set fs₁ := fs.setDinode x { Dinode.zero with type := type } with hfs₁
  have hn₁ : fs₁.dinode n = fs.dinode n := Fs.dinode_setDinode_of_ne hne
  obtain ⟨hk, rfl⟩ : k ≠ 16 ∧ di = Dinode.zero := by
    rcases hout with ⟨-, hx0, -⟩ | ⟨hk, -, hdi⟩
    · rw [hfailed] at hx0
      exact absurd (hx0 ▸ hfree) hsound.null
    · exact ⟨hk, hdi⟩
  obtain rfl := hwhole.resolve_right hk
  -- the write failed for want of the one block it needs
  have hfull : freeBlocks fs₁.su fs₁.disk = [] := by
    have hgood₁ : GoodDir fs₁ n := SameDir.goodDir
      ⟨by rw [hn₁], fileBlock_setDinode hwf hx hn hne hused, content_setDinode hwf hx hn hne hused⟩ hgood
    have hone := length_need_dirent_le hgood₁ (by rwa [hn₁]) (newDirent x name).bytes
    rw [hn₁] at hone
    rcases hwritten.outcome with ⟨hdone, -⟩ | ⟨-, hshort⟩
    · simp only [writeRequest, WriteRequest.done, maxBlocks] at hdone
      omega
    · exact List.eq_nil_of_length_eq_zero (by omega)
  have hidle : fs₂ = fs₁ := by
    refine fsWrite_idle hwf₁ halloc₁ (show bits32 (direntSize : ℤ) ≤ 0xefffffff by decide) (by decide)
      (fs.fits_dinode n).size (by rw [hn₁]) hwrite ?_
    rw [hwritten.free, hfull, List.drop_nil]
  rw [hidle, hfs₁, Fs.setDinode_setDinode] at hsame
  exact (unchanged_setDinode hwf hx hfree).of_sameStore (SameStore.refl fs) hsame

/-- A failed creation changes nothing in use. -/
theorem fsMknod_unchanged (hsound : Sound fs) (htree : Tree fs) {path : Option CString} {type : ℕ}
    (h : fsMknod fs path type = .ok (nullInum, fs')) : Unchanged fs fs' := by
  rcases fsMknod_steps hsound.wellFormed hsound.null h with
    ⟨-, hsame⟩ | ⟨p, name, parent, n, x, fs₂, -, htype, hx, hfree, -, hchecks, hsame, hlink⟩
  · exact hsame.unchanged
  · have hdinode (i : ℕ) : fs₂.dinode i = fs.dinode i := by rw [hsame]; rfl
    have htree₂ : Tree fs₂ := by
      rw [hsame]
      exact ⟨htree.distinct, htree.names, htree.links, htree.linkcnt⟩
    exact (linkInode_unchanged (hsound.of_sameStore hsame) htree₂ hchecks.lt
      (by rw [hdinode]; exact hchecks.dir)
      hx (by rw [hdinode]; exact hfree) htype hlink rfl).of_sameStore hsame (SameStore.refl _)

/-- In every state reached from a formatted partition, a call of `fs_mknod` that returns no inode
leaves the bitmap, the inodes in use and their contents as they were. -/
theorem fsMknod_failed_unchanged {t : List (Call × ℤ)} (hformatted : Formatted fs₀)
    (hrun : ProperRun fs₀ t fs) {path : Option CString} {type : ℕ}
    (h : fsMknod fs path type = .ok (nullInum, fs')) : Unchanged fs fs' := by
  obtain ⟨hsound, htree⟩ := hformatted.run hrun
  exact fsMknod_unchanged hsound htree h

/-- The path of a file in the directory `/b`. -/
def pathBA : CString := ⟨[slash, 98, slash, 97], by decide⟩

/-- The path of its directory, as `getname` cuts it off. -/
def parentB : CString := ⟨[slash, 98, slash], by decide⟩

/-- A file has taken all free blocks before the empty directory `/b` got its first entry: a new
entry passes all checks, but it cannot be written. -/
theorem exists_directory_full : ∃ fs₀ t fs, Formatted fs₀ ∧ ProperRun fs₀ t fs ∧ fs.su.nblockDat ≤ 4096 ∧
    MknodPasses fs pathBA ⟨[97], by decide⟩ parentB 3 ∧ fs.FirstFree 4 ∧ ¬fs.EntryFits 3 := by
  obtain ⟨fs₀, hfresh, hdat₀⟩ := exists_freshlyMounted
  have hformatted := hfresh.formatted.1
  have hsound₀ := hformatted.sound
  obtain ⟨fs₁, fs₂, hfirst, hsecond⟩ :=
    hformatted.creates_twice (by omega) (by omega) (show tReg ≤ 3 by decide) (show tDir ≤ 3 by decide)
  have hsound₁ := hsound₀.mknod hfirst
  have hsound₂ := hsound₁.mknod hsecond
  have hcutA : getname (some pathA) = .ok (some (⟨[97], by decide⟩, ⟨[slash], by decide⟩)) := by decide
  have hcutB : getname (some pathB) = .ok (some (⟨[98], by decide⟩, ⟨[slash], by decide⟩)) := by decide
  have heffect₁ := (hsound₀.mknod_root hcutA rfl hfirst (by decide)).2.2
  have heffect₂ := (hsound₁.mknod_root hcutB rfl hsecond (by decide)).2.2
  have hreg : fs₂.dinode 2 = { Dinode.zero with type := tReg, linkcnt := 1 } := by
    rw [heffect₂.others 2 (by decide) (by decide) (by decide)]
    exact (fsMknod_new hsound₀ hfirst (by decide)).2.2.2
  have hdir : fs₂.dinode 3 = { Dinode.zero with type := tDir, linkcnt := 1 } :=
    (fsMknod_new hsound₁ hsecond (by decide)).2.2.2
  have hfour : (fs₂.dinode 4).type = 0 := by
    rw [heffect₂.others 4 (by decide) (by decide) (by decide),
      heffect₁.others 4 (by decide) (by decide) (by decide)]
    exact hformatted.free 4 (by decide) (by decide) (by decide)
  have hsu₂ : fs₂.su.nblockDat = 8 := by rw [heffect₂.su_eq, heffect₁.su_eq, hdat₀]
  -- the write asks for nine blocks, more than there are
  have halloc : fs₂.Allocated 2 :=
    ⟨by rw [hsound₂.wellFormed.layout.ninodes]; decide, by rw [hreg]; decide⟩
  obtain ⟨⟨ret, fs⟩, hwrite⟩ :=
    fsWrite_returns (show fs₂.su.nblockDat ≤ 4096 by omega) 2 (fun _ => 0) 4096 0
  have hrun : ProperRun fs₀ [(.mknod (some pathA) tReg, 2), (.mknod (some pathB) tDir, 3),
      (.write 2 (fun _ => 0) 4096 0, ret)] fs :=
    ((Run.start.call ⟨by decide, fittingPath_pathA⟩ (exec_mknod hfirst)).call
      ⟨by decide, fittingPath_pathB⟩ (exec_mknod hsecond)).call
      ⟨halloc.1, by rw [hreg], by decide⟩ hwrite
  have hsound := hsound₀.run hrun.fileRun
  obtain ⟨n, rfl, -, hwritten⟩ :=
    fsWrite_spec hsound₂.wellFormed halloc (show bits32 4096 ≤ 0xefffffff by decide) (by decide) hwrite
  have hfull : freeBlocks fs.su fs.disk = [] := by
    have hneed : (fs₂.need 2 (writeRequest (fun _ => 0) 4096 0)).length = 9 := by
      rw [Fs.need, hreg]
      rfl
    have hfree : (freeBlocks fs₂.su fs₂.disk).length ≤ 8 := by
      rw [freeBlocks, List.length_map]
      refine (List.length_filter_le _ _).trans ?_
      rw [List.length_range, hsu₂]
      decide
    rw [hwritten.su_eq, hwritten.free, List.drop_eq_nil_of_le]
    exact hfree.trans (by rw [show bits32 4096 = 4096 by decide, hneed]; decide)
  have hdir' : fs.dinode 3 = { Dinode.zero with type := tDir, linkcnt := 1 } :=
    (hwritten.others 3 (by decide) (by decide)).trans hdir
  have htype : (fs.dinode 3).type = tDir := by rw [hdir']
  refine ⟨fs₀, _, fs, hformatted, hrun, by rw [hwritten.su_eq]; omega, ?_, ?_, ?_⟩
  · refine ⟨by decide, ?_, by decide, by decide, htype, ?_⟩
    · have hshort : pathB.ShortNames := shortNames_of_length (by decide)
      obtain ⟨rest, hbytes, -, hafter⟩ := fsMknod_found hsound₁ hshort hsecond (by decide) (by decide)
      have hnames : pathNames [98, slash] = pathNames [98] := by
        rw [pathNames_of_ne_nil (show ([98, slash] : List UInt8) ≠ [] by decide),
          pathNames_of_ne_nil (show ([98] : List UInt8) ≠ [] by decide)]
        rfl
      have hresolve : fs.resolve rootInum (pathNames [98]) = 3 := by
        cases hbytes
        have hstep : FileRun fs₂ [(.write 2 (fun _ => 0) 4096 0, n)] fs :=
          Run.start.call ⟨halloc.1, by rw [hreg], by decide⟩ hwrite
        exact (hsound₂.resolve_run hstep (by rw [hafter]; decide)).trans hafter
      rw [fsLookup_eq hsound.wellFormed.init hsound.wellFormed.layout hsound.dirs
        (show parentB.bytes = slash :: [98, slash] from rfl) (by decide)
        (shortNames_of_length (by decide)), hnames, hresolve]
    · rw [dirLookup_eq hsound.wellFormed.init hsound.wellFormed.layout (by decide)
        (fun _ => hsound.dirs.dirs 3 (by decide) htype), Fs.child, if_pos htype, Fs.dirents, hdir']
      rfl
  · refine ⟨by decide, by rw [hwritten.others 4 (by decide) (by decide), hfour], fun j hj => ?_⟩
    obtain rfl | rfl | rfl | rfl : j = nullInum ∨ j = rootInum ∨ j = 2 ∨ j = 3 := by
      simp only [nullInum, rootInum]
      omega
    · exact hsound.null
    · rw [hsound.root]
      decide
    · rw [hwritten.type_eq (by decide), hreg]
      decide
    · rw [htype]
      decide
  · rintro ⟨-, hroom⟩
    have hnulls : fs.neededNulls 3 (fs.dinode 3).size 16 = [(0, 0)] := by
      rw [Fs.neededNulls, hdir']
      rfl
    rw [hfull, hnulls] at hroom
    exact absurd hroom (by decide)

/-- The entry of a new file finds no free block, and the file that has been prepared for it is taken
back. -/
theorem fsMknod_failed_unchanged_full : ∃ fs₀ t fs fs', Formatted fs₀ ∧ ProperRun fs₀ t fs ∧
    MknodPasses fs pathBA ⟨[97], by decide⟩ parentB 3 ∧ fs.FirstFree 4 ∧ ¬fs.EntryFits 3 ∧
    fsMknod fs (some pathBA) tReg = .ok (nullInum, fs') ∧ Unchanged fs fs' := by
  obtain ⟨fs₀, t, fs, hformatted, hrun, hdat, hpasses, hfirst, hfits⟩ := exists_directory_full
  have hsound := (hformatted.run hrun).1
  obtain ⟨⟨m, fs'⟩, hmknod⟩ := fsMknod_returns hsound.wellFormed hsound.dirs hdat
    (show pathBA.bytes.length < maxPath by decide) (shortNames_of_length (by decide)) tReg
  obtain rfl : m = nullInum := by
    by_contra hm
    obtain ⟨name, parent, n, hcreate, -⟩ := fsMknod_created hsound.wellFormed hsound.null hmknod hm
    have hname := hcreate.passes.getname.symm.trans hpasses.getname
    cases hname
    have hlookup := hcreate.passes.lookup.symm.trans hpasses.lookup
    cases hlookup
    exact hfits hcreate.fits
  exact ⟨fs₀, t, fs, fs', hformatted, hrun, hpasses, hfirst, hfits, hmknod,
    fsMknod_failed_unchanged hformatted hrun hmknod⟩

end Hobby386
