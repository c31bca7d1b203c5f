import Hobby386.Fs.Calls

/-!
# Reachable file systems

The states between proper calls, from the first mount of a blank partition on. Every block has the
owner that the bitmap says it has, and a call changes no file but the one it is about.
-/

namespace Hobby386

open PointerForest Runs

/-- The state after formatting and mounting a partition of zeros. -/
def FreshlyMounted (fs : Fs) : Prop :=
  ∃ (disk : Disk) (p : Partition), p.Usable ∧ (∀ n, p.Contains n → disk n = .zero) ∧
    mkfsMount (Fs.boot disk) p = .ok fs

/-- Runs of proper calls. -/
abbrev ProperRun : Fs → List (Call × ℤ) → Fs → Prop := Run Call.exec fun _ fs c => c.Proper fs

/-- The states between proper calls. -/
def Reachable (fs : Fs) : Prop := ∃ fs₀ t, FreshlyMounted fs₀ ∧ ProperRun fs₀ t fs

/-- The invariant of proper calls: the file system is sound, no block is lost, and the bitmap fits in
its block. -/
structure Sane (fs : Fs) : Prop where
  sound : Sound fs
  noLeak : NoLeak fs
  nblockDat_le : fs.su.nblockDat ≤ 4096

variable {fs fs' : Fs} {c : Call} {ret : ℤ} {t : List (Call × ℤ)}

/-- A freshly mounted file system is formatted. -/
theorem FreshlyMounted.formatted (h : FreshlyMounted fs) : Formatted fs ∧ fs.su.nblockDat ≤ 4096 := by
  obtain ⟨disk, p, hp, hzero, hmount⟩ := h
  obtain ⟨fs₁, hmount₁, hformatted, hsu⟩ := formatted_mkfsMount hp hzero
  rw [hmount] at hmount₁
  cases hmount₁
  refine ⟨hformatted, ?_⟩
  have hbitmap := hp.bitmap
  rw [hsu, newSuper_eq hp]
  simp only
  omega

/-- No call changes the superblock. -/
theorem CallEffect.su_eq (h : CallEffect fs c ret fs') : fs'.su = fs.su := by
  cases h with
  | silent same failed => exact same.su_eq
  | linked hx hfree htype checks effect => exact effect.su_eq
  | written effect => exact effect.su_eq

/-- A call on a sound file system has one of the effects. -/
theorem Sound.exec_effect (hsound : Sound fs) (hfiles : c.OnFiles fs) (h : c.exec fs = .ok (ret, fs')) :
    CallEffect fs c ret fs' :=
  Call.exec_effect hsound.wellFormed hsound.null hfiles.applicable h

/-- A property that the effects of legal calls on a sound file system keep holds after every run. -/
theorem Sound.run_keeps {legal : Fs → Call → Prop} {I : Fs → Prop} (hsound : Sound fs)
    (hlegal : ∀ fs c, legal fs c → c.OnFiles fs)
    (hcall : ∀ fs₁ c ret fs₂, Sound fs₁ → legal fs₁ c → CallEffect fs₁ c ret fs₂ → I fs₁ → I fs₂)
    (hI : I fs) (h : Run Call.exec (fun _ => legal) fs t fs') : Sound fs' ∧ I fs' := by
  refine h.preserves (I := fun fs => Sound fs ∧ I fs) ?_ ⟨hsound, hI⟩
  rintro _ fs₁ c ret fs₂ ⟨hs, hbefore⟩ hc hexec
  have heffect := hs.exec_effect (hlegal fs₁ c hc) hexec
  exact ⟨hs.call (hlegal fs₁ c hc) heffect, hcall fs₁ c ret fs₂ hs hc heffect hbefore⟩

/-- One call keeps sanity. -/
theorem Sane.call (hsane : Sane fs) (hfiles : c.OnFiles fs) (h : c.exec fs = .ok (ret, fs')) :
    Sane fs' := by
  have heffect := hsane.sound.exec_effect hfiles h
  refine ⟨hsane.sound.call hfiles heffect,
    hsane.noLeak.call hsane.sound.wellFormed hfiles.applicable heffect, ?_⟩
  rw [heffect.su_eq]
  exact hsane.nblockDat_le

/-- A freshly mounted file system is sane. -/
theorem FreshlyMounted.sane (h : FreshlyMounted fs) : Sane fs :=
  ⟨h.formatted.1.sound, h.formatted.1.noLeak, h.formatted.2⟩

/-- A run keeps sanity. -/
theorem Sane.run (hsane : Sane fs) (h : ProperRun fs t fs') : Sane fs' :=
  h.preserves (fun _ _ _ _ _ hs hproper hexec => hs.call hproper.onFiles hexec) hsane

/-- Reachable file systems are sane. -/
theorem Reachable.sane (h : Reachable fs) : Sane fs := by
  obtain ⟨fs₀, t, hfresh, hrun⟩ := h
  exact hfresh.sane.run hrun

/-- A proper call leads to a reachable file system. -/
theorem Reachable.call (h : Reachable fs) (hproper : c.Proper fs) (hexec : c.exec fs = .ok (ret, fs')) :
    Reachable fs' := by
  obtain ⟨fs₀, t, hfresh, hrun⟩ := h
  exact ⟨fs₀, _, hfresh, hrun.call hproper hexec⟩

/-- Proper calls return, except for lookups of paths whose components overflow the name buffer. -/
theorem Sane.exec_returns (hsane : Sane fs) (hproper : c.Proper fs)
    (hlookup : ∀ path, c = .lookup (some path) → path.ShortNames) : ∃ r, c.exec fs = .ok r := by
  obtain ⟨hsound, -, hdat⟩ := hsane
  cases c with
  | mknod path type =>
    obtain ⟨-, p, rfl, hlen, hshort⟩ := hproper
    obtain ⟨r, hr⟩ := fsMknod_returns hsound.wellFormed hsound.dirs hdat hlen hshort type
    exact ⟨_, by rw [Call.exec, hr, ok_bind]⟩
  | write inum buf sz off => exact fsWrite_returns hdat inum buf sz off
  | read inum buf sz off =>
    obtain ⟨r, hr⟩ := fsRead_returns hdat inum buf sz off
    exact ⟨_, by rw [Call.exec, hr, ok_bind]⟩
  | lookup path =>
    cases path with
    | none => exact ⟨_, rfl⟩
    | some path =>
      obtain ⟨m, -, hm⟩ := fsLookup_returns hsound.wellFormed.init hsound.wellFormed.layout hsound.dirs
        (hlookup path rfl)
      exact ⟨_, by rw [Call.exec, hm, ok_bind]⟩

/-- The path of a file in the root directory. -/
def pathA : CString := ⟨[slash, 97], by decide⟩

/-- The path of another file in the root directory. -/
def pathB : CString := ⟨[slash, 98], by decide⟩

/-- Short paths have short components. -/
theorem shortNames_of_length {path : CString} (h : path.bytes.length < maxName) : path.ShortNames :=
  fun _ hname _ => hname.length_le.trans_lt h

/-- The path of the first file fits. -/
theorem fittingPath_pathA : FittingPath (some pathA) :=
  ⟨pathA, rfl, by decide, shortNames_of_length (by decide)⟩

/-- The path of the second file fits. -/
theorem fittingPath_pathB : FittingPath (some pathB) :=
  ⟨pathB, rfl, by decide, shortNames_of_length (by decide)⟩

/-- A small partition of zeros can be mounted. -/
theorem exists_freshlyMounted : ∃ fs, FreshlyMounted fs ∧ fs.su.nblockDat = 8 := by
  have hp : (Partition.mk 0 65).Usable := by constructor <;> decide
  obtain ⟨fs, hmount, -, hsu⟩ :=
    formatted_mkfsMount hp (fun n _ => show (fun _ => Block.zero) n = .zero from rfl)
  exact ⟨fs, ⟨_, _, hp, fun _ _ => rfl, hmount⟩, by rw [hsu]; rfl⟩

/-- A new inode starts without contents. -/
theorem fsMknod_new (hsound : Sound fs) {path : Option CString} {type m : ℕ}
    (h : fsMknod fs path type = .ok (m, fs')) (hm : m ≠ nullInum) :
    m < 200 ∧ type ≤ 3 ∧ (fs.dinode m).type = 0 ∧
      fs'.dinode m = { Dinode.zero with type := type, linkcnt := 1 } := by
  obtain ⟨-, -, -, -, -, htype, hlt, hfree, -, -, hnew⟩ :=
    fsMknod_linked hsound.wellFormed hsound.null h hm
  exact ⟨hlt, htype, hfree, hnew⟩

/-- In an empty file system two files can be created in the root directory. The second gets the inode
of the first when that one has been created with type 0, and the next inode otherwise. -/
theorem Formatted.creates_twice (h : Formatted fs) (hlow : 8 ≤ fs.su.nblockDat)
    (hdat : fs.su.nblockDat ≤ 4096) {type type' : ℕ} (htype : type ≤ 3) (htype' : type' ≤ 3) :
    ∃ fs₁ fs₂, fsMknod fs (some pathA) type = .ok (2, fs₁) ∧
      fsMknod fs₁ (some pathB) type' = .ok (if type = 0 then 2 else 3, fs₂) := by
  have hsound := h.sound
  have hcut : getname (some pathA) = .ok (some (⟨[97], by decide⟩, ⟨[slash], by decide⟩)) := by decide
  obtain ⟨fs₁, hmknod⟩ := h.creates hlow hdat hcut rfl htype
  obtain ⟨hx, hfree, heffect⟩ := hsound.mknod_root hcut rfl hmknod (by decide)
  have hsound₁ := hsound.link (by decide) hsound.root hx hfree heffect
  have htype₁ : (fs₁.dinode 2).type = type := by
    rcases heffect.outcome with ⟨-, -, hdi⟩ | ⟨-, hzero, -⟩
    · exact congrArg Dinode.type hdi
    · cases hzero
  have hfree₁ : (fs₁.dinode 3).type = 0 := by
    rw [heffect.others 3 (by decide) (by decide) (by decide)]
    exact h.free 3 (by decide) (by decide) (by decide)
  have hsize₁ : (fs₁.dinode rootInum).size = 16 := by
    have hparent := congrArg Dinode.size heffect.parent
    rwa [h.root] at hparent
  have hchild₁ : fs₁.child rootInum [98] = nullInum := by
    rw [Fs.child, if_pos hsound₁.root, heffect.dirents_parent hsound (by decide) hsound.root hx,
      h.dirents_eq (by decide) hsound.root]
    decide
  have hblock₁ : fs₁.fileBlock rootInum 0 ≠ 0 := by
    have hnew := (heffect.parent_new 0 (by decide)).1
    rwa [h.root] at hnew
  have hreserved : ∀ j < 2, (fs₁.dinode j).type ≠ 0 := by
    intro j hj
    obtain rfl | rfl : j = nullInum ∨ j = rootInum := by
      simp only [nullInum, rootInum]
      omega
    · exact hsound₁.null
    · rw [hsound₁.root]
      decide
  -- the entry of the second file goes into the block of the first one
  have hagain (x : ℕ) (hx : x < 200) (hpos : x ≠ nullInum) (hfree : (fs₁.dinode x).type = 0)
      (hleast : ∀ j < x, (fs₁.dinode j).type ≠ 0) : ∃ fs₂, fsMknod fs₁ (some pathB) type' =
      .ok (x, fs₂) := by
    apply fsMknod_creates hsound₁.wellFormed (by rw [heffect.su_eq]; exact hdat)
      (show getname (some pathB) = .ok (some (⟨[98], by decide⟩, ⟨[slash], by decide⟩)) by decide)
      (hsound₁.lookup_root rfl) (by decide) (by decide) hsound₁.root
      (hsound₁.dirs.dirs _ (by decide) hsound₁.root) hchild₁ hx hpos hfree hleast htype'
    · rw [hsize₁]
      decide
    · rw [hsize₁, Fs.need_eq_nil]
      · exact Nat.zero_le _
      · exact Nat.le_refl 0
      · intro k _ hk
        obtain rfl : k = 0 := Nat.le_zero.mp hk
        rw [fileBlock_setDinode hsound₁.wellFormed hx (by decide) (ne_of_free hsound₁.root hfree)
          (by rw [hsound₁.root]; decide)]
        exact hblock₁
  refine ⟨fs₁, ?_⟩
  split
  · rename_i hzero
    obtain ⟨fs₂, hsecond⟩ := hagain 2 hx (by decide) (htype₁.trans hzero) hreserved
    exact ⟨fs₂, hmknod, hsecond⟩
  · rename_i hpos
    obtain ⟨fs₂, hsecond⟩ := hagain 3 (by decide) (by decide) hfree₁ fun j hj => by
      rcases Nat.lt_succ_iff_lt_or_eq.mp hj with hj | rfl
      · exact hreserved j hj
      · rwa [htype₁]
    exact ⟨fs₂, hmknod, hsecond⟩

/-- A first file, and seven free blocks behind it. -/
theorem exists_reachable_mknod : ∃ fs₀ fs, FreshlyMounted fs₀ ∧
    fsMknod fs₀ (some pathA) tReg = .ok (2, fs) ∧ Reachable fs ∧
    fs.dinode 2 = { Dinode.zero with type := tReg, linkcnt := 1 } ∧
    (freeBlocks fs.su fs.disk).length = 7 := by
  obtain ⟨fs₀, hfresh, hdat⟩ := exists_freshlyMounted
  have hcut : getname (some pathA) = .ok (some (⟨[97], by decide⟩, ⟨[slash], by decide⟩)) := by decide
  have hformatted := hfresh.formatted.1
  obtain ⟨fs, hmknod⟩ := hformatted.creates (by omega) (by omega) hcut rfl (show tReg ≤ 3 by decide)
  have hreach : Reachable fs₀ := ⟨fs₀, [], hfresh, .start⟩
  have hproper : (Call.mknod (some pathA) tReg).Proper fs₀ := ⟨by decide, fittingPath_pathA⟩
  obtain ⟨-, -, heffect⟩ := hformatted.sound.mknod_root hcut rfl hmknod (by decide)
  refine ⟨fs₀, fs, hfresh, hmknod, hreach.call hproper (exec_mknod hmknod),
    (fsMknod_new hfresh.sane.sound hmknod (by decide)).2.2.2, ?_⟩
  rw [heffect.su_eq, heffect.free, List.length_drop, hformatted.need_root (by decide),
    hformatted.length_freeBlocks, hdat]
  decide

/-! ## Ownership of blocks -/

/-- Every pointer leads to the data area, no two pointers lead to the same block, and the bitmap marks
exactly the blocks that a pointer leads to. -/
theorem blocks_owned_once (h : Reachable fs) :
    (∀ b, 0 < fs.owners b → fs.su.InData b) ∧ (∀ b, fs.owners b ≤ 1) ∧
      ∀ b, fs.su.InData b → (marked fs.su fs.disk b = true ↔ fs.owners b = 1) := by
  obtain ⟨hsound, hleak, -⟩ := h.sane
  have hacc := hsound.wellFormed.accounts
  refine ⟨fun b hb => ((hacc b).2 hb).1, fun b => (hacc b).1,
    fun b hdata => ⟨hleak b hdata, fun hb => ?_⟩⟩
  exact ((hacc b).2 (by omega)).2

/-- The ownership of blocks after a first call of `fs_mknod`. -/
theorem blocks_owned_once_mknod : ∃ fs, Reachable fs ∧ (∀ b, 0 < fs.owners b → fs.su.InData b) ∧
    (∀ b, fs.owners b ≤ 1) ∧ ∀ b, fs.su.InData b →
    (marked fs.su fs.disk b = true ↔ fs.owners b = 1) := by
  obtain ⟨-, fs, -, -, hreach, -⟩ := exists_reachable_mknod
  exact ⟨fs, hreach, blocks_owned_once hreach⟩

/-! ## Isolation of files -/

/-- The bytes of a file, up to its size. -/
def Fs.fileBytes (fs : Fs) (inum : ℕ) : List UInt8 :=
  (List.range (fs.dinode inum).size).map (fs.content inum)

/-- Nothing in front of the data area has changed but the bitmap and the inodes, and no inode in use but
inode `i`, nor the contents of its file. -/
structure OnlyFile (fs : Fs) (i : ℕ) (fs' : Fs) : Prop where
  su_eq : fs'.su = fs.su
  front : ∀ b < fs.su.sinode, fs'.disk b = fs.disk b
  dinode : ∀ j, fs.Allocated j → j ≠ i → fs'.dinode j = fs.dinode j
  content : ∀ j, fs.Allocated j → j ≠ i → ∀ x, fs'.content j x = fs.content j x

/-- A write changes its file only. -/
theorem FileWritten.onlyFile {inum n : ℕ} {c : WriteRequest} (hwf : WellFormed fs)
    (halloc : fs.Allocated inum) (h : FileWritten fs inum c n fs') : OnlyFile fs inum fs' where
  su_eq := h.su_eq
  front := fun _ hb => h.disk_of_lt hwf halloc hb
  dinode := fun _ hj hne => h.others _ (hwf.layout.ninodes ▸ hj.1) hne
  content := fun _ hj hne => h.content_other hwf halloc (hwf.layout.ninodes ▸ hj.1) hne hj.2

/-- A call that keeps the store changes no file. -/
theorem SameStore.onlyFile (h : SameStore fs fs') (i : ℕ) : OnlyFile fs i fs' := by
  rw [h]
  exact ⟨rfl, fun _ _ => rfl, fun _ _ _ => rfl, fun _ _ _ _ => rfl⟩

/-- Linking a new inode changes no file but the parent. -/
theorem LinkEffect.onlyFile {type n x k m : ℕ} {name : CString} (hwf : WellFormed fs)
    (hfree : (fs.dinode x).type = 0) (h : LinkEffect fs type n name x k m fs') : OnlyFile fs n fs' where
  su_eq := h.su_eq
  front := h.frame
  dinode := fun _ hj hne => h.others _ (hwf.layout.ninodes ▸ hj.1) hne
    (by rintro rfl; exact hj.2 hfree)
  content := fun j hj hne => h.content_others j (hwf.layout.ninodes ▸ hj.1) hne hj.2

/-- The bytes of the parent after the call. -/
theorem LinkEffect.fileBytes_parent {type n x m : ℕ} {name : CString} (hgood : GoodDir fs n)
    (h : LinkEffect fs type n name x 16 m fs') :
    fs'.fileBytes n = fs.fileBytes n ++ (List.range 16).map (newDirent x name).bytes := by
  have hsize : (fs'.dinode n).size = (fs.dinode n).size + 16 := by rw [h.parent]
  rw [Fs.fileBytes, Fs.fileBytes, hsize, List.range_add, List.map_append, List.map_map]
  refine congrArg₂ (· ++ ·) ?_ ?_
  · apply List.map_congr_left
    intro y hy
    rw [List.mem_range] at hy
    exact h.parent_old y hy (hgood.mapped _ (by omega))
  · apply List.map_congr_left
    intro j hj
    exact (h.parent_new j (List.mem_range.mp hj)).2

/-- A write changes no other file, and the creation of an inode none but its parent directory, which
gets exactly one more entry. -/
theorem files_isolated (h : Reachable fs) :
    (∀ (i : ℕ) (buf : Memory) (sz : ℤ) (off : ℕ), fs.Allocated i → off < 4294967296 →
      ∃ ret fs', fsWrite fs i buf sz off = .ok (ret, fs') ∧ OnlyFile fs i fs') ∧
    ∀ (path : Option CString) (type m : ℕ) (fs' : Fs), fsMknod fs path type = .ok (m, fs') →
      m ≠ nullInum →
      ∃ p name parent n, path = some p ∧ getname (some p) = .ok (some (name, parent)) ∧
        (∃ r, fsLookup fs (some parent) = .ok r ∧ r.1 = n) ∧ OnlyFile fs n fs' ∧
        fs'.fileBytes n = fs.fileBytes n ++ (List.range 16).map (newDirent m name).bytes := by
  obtain ⟨hsound, -, hdat⟩ := h.sane
  have hwf := hsound.wellFormed
  constructor
  · intro i buf sz off halloc hoff
    obtain ⟨⟨ret, fs'⟩, hwrite⟩ := fsWrite_returns hdat i buf sz off
    refine ⟨ret, fs', hwrite, ?_⟩
    cases Call.exec_effect (c := .write i buf sz off) hwf hsound.null ⟨halloc, hoff⟩ hwrite with
    | silent same failed => exact same.onlyFile i
    | written effect => exact effect.onlyFile hwf halloc
  · intro path type m fs' hmknod hm
    obtain ⟨p, name, parent, n, hp, -, -, hfree, hchecks, heffect, -⟩ :=
      fsMknod_linked hwf hsound.null hmknod hm
    exact ⟨p, name, parent, n, hp, hchecks.getname, hchecks.lookup, heffect.onlyFile hwf hfree,
      heffect.fileBytes_parent (hsound.dirs.dirs n hchecks.lt hchecks.dir)⟩

/-- The isolation of files after a first call of `fs_mknod`. -/
theorem files_isolated_mknod : ∃ fs, Reachable fs ∧
    (∀ (i : ℕ) (buf : Memory) (sz : ℤ) (off : ℕ), fs.Allocated i → off < 4294967296 →
      ∃ ret fs', fsWrite fs i buf sz off = .ok (ret, fs') ∧ OnlyFile fs i fs') ∧
    ∀ (path : Option CString) (type m : ℕ) (fs' : Fs), fsMknod fs path type = .ok (m, fs') →
      m ≠ nullInum →
      ∃ p name parent n, path = some p ∧ getname (some p) = .ok (some (name, parent)) ∧
        (∃ r, fsLookup fs (some parent) = .ok r ∧ r.1 = n) ∧ OnlyFile fs n fs' ∧
        fs'.fileBytes n = fs.fileBytes n ++ (List.range 16).map (newDirent m name).bytes := by
  obtain ⟨-, fs, -, -, hreach, -⟩ := exists_reachable_mknod
  exact ⟨fs, hreach, files_isolated hreach⟩

end Hobby386
